import MemoryGraph.Server.SnapshotDir

/-! What the current pair is over whole runs of promotions, prunes and restarts. -/

namespace MemoryGraph.Server
open Lib Function
variable {s : DirState} {d : SnapshotDir} {h : String} {l : List Stem}

namespace SnapshotDir

structure Complete (d : SnapshotDir) (st : Stem) (s : Sidecar) : Prop where
  side : d.side st = some s
  data : ∃ bytes, d.data st = some bytes ∧ bytes.length = s.size

theorem pair_eq_some {st : Stem} {r : Sidecar × Stem} :
    d.pair st = some r ↔ d.Complete st r.1 ∧ r.2 = st := by
  unfold pair
  constructor
  · intro h
    split at h
    · rename_i s bytes hs hb
      split_ifs at h with hlen
      cases h
      exact ⟨⟨hs, bytes, hb, hlen⟩, rfl⟩
    · cases h
  · rintro ⟨⟨hs, bytes, hb, hlen⟩, rfl⟩
    simp [hs, hb, hlen]

theorem mem_pairs (hl : d.Listed l) {r : Sidecar × Stem} :
    r ∈ d.pairs h l ↔ d.Complete r.2 r.1 := by
  rw [pairs, List.mem_insertionSort, List.mem_filterMap]
  constructor
  · rintro ⟨st, _, hp⟩
    obtain ⟨hc, rfl⟩ := pair_eq_some.mp hp
    exact hc
  · intro hc
    exact ⟨r.2, (hl r.2).mpr (by rw [hc.side]; simp), pair_eq_some.mpr ⟨hc, rfl⟩⟩

theorem sortsBefore_trans (h : String) (x y z : Sidecar × Stem) (hxy : sortsBefore h x y = true)
    (hyz : sortsBefore h y z = true) : sortsBefore h x z = true := by
  simp only [sortsBefore, Bool.or_eq_true, decide_eq_true_eq, Bool.and_eq_true,
    Bool.not_eq_true'] at *
  grind

theorem sortsBefore_total (h : String) (x y : Sidecar × Stem) :
    sortsBefore h x y = true ∨ sortsBefore h y x = true := by
  simp only [sortsBefore, Bool.or_eq_true, decide_eq_true_eq, Bool.and_eq_true, Bool.not_eq_true']
  grind

theorem sortsBefore_index {x y : Sidecar × Stem} (hxy : sortsBefore h x y = true) :
    y.1.index ≤ x.1.index := by
  simp only [sortsBefore, Bool.or_eq_true, decide_eq_true_eq, Bool.and_eq_true] at hxy
  omega

theorem current_spec (hl : d.Listed l) {s : Sidecar} {st : Stem}
    (hc : d.current h l = some (s, st)) :
    d.Complete st s ∧ ∀ st' s', d.Complete st' s' → s'.index ≤ s.index := by
  obtain ⟨rest, hpairs⟩ : ∃ rest, d.pairs h l = (s, st) :: rest := by
    rw [current] at hc
    cases hp : d.pairs h l with
    | nil => rw [hp] at hc; cases hc
    | cons r rest =>
      rw [hp] at hc
      cases hc
      exact ⟨rest, rfl⟩
  have hsorted : (d.pairs h l).Pairwise (fun x y => sortsBefore h x y = true) :=
    have : Std.Total (fun x y : Sidecar × Stem => sortsBefore h x y = true) := ⟨sortsBefore_total h⟩
    have : IsTrans (Sidecar × Stem) (fun x y => sortsBefore h x y = true) := ⟨sortsBefore_trans h⟩
    List.pairwise_insertionSort _ _
  rw [hpairs, List.pairwise_cons] at hsorted
  refine ⟨(mem_pairs hl).mp (hpairs ▸ List.mem_cons_self), ?_⟩
  intro st' s' hc'
  have hmem : (s', st') ∈ (s, st) :: rest := hpairs ▸ (mem_pairs hl).mpr hc'
  rcases List.mem_cons.mp hmem with he | hin
  · cases he
    exact le_refl _
  · exact sortsBefore_index (hsorted.1 _ hin)

theorem current_eq_none (hl : d.Listed l)
    (hc : d.current h l = none) (st : Stem) (s : Sidecar) : ¬ d.Complete st s := by
  intro hcomplete
  have hmem : (s, st) ∈ d.pairs h l := (mem_pairs hl).mpr hcomplete
  rw [current, List.head?_eq_none_iff] at hc
  rw [hc] at hmem
  cases hmem

end SnapshotDir

/-- The log ids of one committed log: an index has one id, and ids are ordered as their
indexes. -/
def CommittedLog (log : LogId → Prop) : Prop :=
  ∀ a b, log a → log b → (a.index = b.index → a = b) ∧ (a.index < b.index → a.key < b.key)

namespace DirState
open SnapshotDir

section
variable (sha256 : List UInt8 → List UInt8) (detectFormat : List UInt8 → Option Nat)
  (log : LogId → Prop)

def Describes (s : Sidecar) (bytes : List UInt8) : Prop :=
  s.sha256 = fileHash sha256 bytes ∧ s.size = bytes.length

/-- A promotion is of a log id of the log, reads the whole directory, and gets a name of
its own from the clock. -/
def Fair (s : DirState) : Action → Prop
  | .promote p listing nanos => (∃ id, p.last = some id ∧ log id) ∧ s.dir.Listed listing ∧
      s.dir.data { stem p.last with rebuilt := some nanos } = none ∧
      s.dir.side { stem p.last with rebuilt := some nanos } = none
  | _ => True

/-- A promotion that renames its data file to the plain name finds no meta of that name. -/
def Clean (s : DirState) : Action → Prop
  | .promote p listing _ => s.verdict p listing = .new → s.dir.data (stem p.last) = none →
      s.dir.side (stem p.last) = none
  | _ => True

def Logged (s : Sidecar) : Prop := ∃ id, s.lastLogId = some id ∧ log id ∧ s.index = id.index

def Below (d : SnapshotDir) (n : Nat) : Prop := ∀ st s, d.Complete st s → s.index ≤ n

structure Inv (s : DirState) : Prop where
  described : ∀ st x bytes, s.dir.side st = some x → s.dir.data st = some bytes →
    Describes sha256 x bytes
  logged : ∀ st x, s.dir.side st = some x → Logged log x
  renamed : ∀ st x, s.phase = .renamed st x → s.dir.side st = none ∧ Logged log x ∧
    Below s.dir x.index ∧ ∃ bytes, s.dir.data st = some bytes ∧ Describes sha256 x bytes
  pruning : ∀ keep, s.phase = .pruning keep → ∃ x, s.dir.Complete keep x ∧ Below s.dir x.index

end

section
variable {sha256 : List UInt8 → List UInt8} {detectFormat : List UInt8 → Option Nat}
  {log : LogId → Prop}

theorem inv_opened (h : String) : Inv sha256 log (opened h) where
  described st x bytes hs := by cases hs
  logged st x hs := by cases hs
  renamed st x hp := by cases hp
  pruning keep hp := by cases hp

def Keeps (d e : SnapshotDir) : Prop :=
  ∀ st s, d.Complete st s → ∃ st' s', e.Complete st' s' ∧ s.index ≤ s'.index

theorem Keeps.refl (d : SnapshotDir) : Keeps d d := fun st s h => ⟨st, s, h, le_refl _⟩

theorem Keeps.trans {d e f : SnapshotDir} (h : Keeps d e) (h' : Keeps e f) : Keeps d f := by
  intro st s hs
  obtain ⟨st₁, s₁, hs₁, h₁⟩ := h st s hs
  obtain ⟨st₂, s₂, hs₂, h₂⟩ := h' st₁ s₁ hs₁
  exact ⟨st₂, s₂, hs₂, h₁.trans h₂⟩

theorem below_of_verdict {p : Promotion} {listing : List Stem} {id : LogId}
    (hlog : CommittedLog log) (h : Inv sha256 log s) (hl : s.dir.Listed listing)
    (hid : p.last = some id) (hin : log id) (hv : s.verdict p listing = .new) :
    Below s.dir id.index := by
  intro st x hx
  unfold verdict at hv
  cases hc : s.dir.current s.extractorsHash listing with
  | none => exact absurd hx (current_eq_none hl hc st x)
  | some r =>
    obtain ⟨side, st₀⟩ := r
    obtain ⟨hcomplete, htop⟩ := current_spec hl hc
    obtain ⟨id₀, hlast, hlog₀, hindex⟩ := h.logged st₀ side hcomplete.side
    simp only [hc] at hv
    split_ifs at hv with _ hnew
    refine (htop st x hx).trans ?_
    rw [hindex]
    by_contra hlt
    -- an index above means an id above, which is stale
    exact hnew (by simpa [newer, hlast, hid] using (hlog id id₀ hin hlog₀).2 (by omega))

theorem finalStem_free {last : Option LogId} {nanos : Nat}
    (hside : s.dir.side { stem last with rebuilt := some nanos } = none)
    (hclean : s.dir.data (stem last) = none → s.dir.side (stem last) = none) :
    s.dir.side (s.finalStem last nanos) = none := by
  unfold finalStem
  split_ifs with htaken
  · exact hside
  · exact hclean (by simpa using htaken)

theorem Inv.idle (h : Inv sha256 log s) (e : String) :
    Inv sha256 log { s with extractorsHash := e, phase := .idle } where
  described := h.described
  logged := h.logged
  renamed st x hp := by cases hp
  pruning keep hp := by cases hp

theorem Inv.placed (h : Inv sha256 log s) {p : Promotion} {nanos : Nat} {id : LogId}
    (hid : p.last = some id) (hin : log id) (hbelow : Below s.dir id.index)
    (hside : s.dir.side (s.finalStem p.last nanos) = none) :
    Inv sha256 log (place sha256 detectFormat s p nanos) ∧
      Keeps s.dir (place sha256 detectFormat s p nanos).dir := by
  set final := s.finalStem p.last nanos with hfinal
  have hd : (place sha256 detectFormat s p nanos).dir.data = update s.dir.data final
      (some p.data) := rfl
  have hs : (place sha256 detectFormat s p nanos).dir.side = s.dir.side := rfl
  have hne : ∀ {st x}, s.dir.side st = some x → st ≠ final := fun hx he => by
    rw [he, hside] at hx
    cases hx
  have hcomplete : ∀ st x, (place sha256 detectFormat s p nanos).dir.Complete st x ↔
      s.dir.Complete st x := by
    intro st x
    constructor
    · rintro ⟨hx, bytes, hb, hlen⟩
      rw [hd, update_of_ne (hne hx)] at hb
      exact ⟨hx, bytes, hb, hlen⟩
    · rintro ⟨hx, bytes, hb, hlen⟩
      exact ⟨hx, bytes, by rw [hd, update_of_ne (hne hx)]; exact hb, hlen⟩
  refine ⟨⟨?_, h.logged, ?_, fun keep hp => by cases hp⟩, ?_⟩
  · intro st x bytes hx hb
    rw [hd, update_of_ne (hne hx)] at hb
    exact h.described st x bytes hx hb
  · intro st x hp
    cases hp
    refine ⟨hside, ⟨id, hid, hin, by simp [sidecarOf, hid]⟩, ?_, p.data, ?_, rfl, rfl⟩
    · intro st' x' hx'
      have hindex : (sidecarOf sha256 detectFormat s p).index = id.index := by simp [sidecarOf, hid]
      rw [hindex]
      exact hbelow st' x' ((hcomplete st' x').mp hx')
    · rw [hd, ← hfinal, update_self]
  · intro st x hx
    exact ⟨st, x, (hcomplete st x).mpr hx, le_refl _⟩

theorem Inv.writeMeta (h : Inv sha256 log s) {final : Stem} {x : Sidecar}
    (hp : s.phase = .renamed final x) {t : DirState}
    (ht : t = { s with dir := { s.dir with side := update s.dir.side final (some x) }
                       phase := .pruning final }) :
    Inv sha256 log t ∧ Keeps s.dir t.dir := by
  obtain ⟨hfree, hlogged, hbelow, bytes, hbytes, hdesc⟩ := h.renamed final x hp
  have hcase : ∀ {st y}, t.dir.side st = some y → st = final ∧ y = x ∨ s.dir.side st = some y := by
    intro st y hy
    subst ht
    dsimp only at hy
    by_cases he : st = final
    · rw [he, update_self] at hy
      exact .inl ⟨he, (Option.some_inj.mp hy).symm⟩
    · rw [update_of_ne he] at hy
      exact .inr hy
  have hdata : t.dir.data = s.dir.data := by rw [ht]
  have hnew : t.dir.Complete final x :=
    ⟨by rw [ht]; exact update_self .., bytes, by rw [hdata]; exact hbytes, hdesc.2.symm⟩
  have hold : ∀ {st y}, s.dir.Complete st y → t.dir.Complete st y := by
    intro st y hy
    have hne : st ≠ final := fun he => by
      have := hy.side
      rw [he, hfree] at this
      cases this
    exact ⟨by rw [ht]; exact (update_of_ne hne _ _).trans hy.side, by rw [hdata]; exact hy.data⟩
  refine ⟨⟨?_, ?_, fun st y hq => (by rw [ht] at hq; cases hq), ?_⟩, fun st y hy =>
    ⟨st, y, hold hy, le_refl _⟩⟩
  · intro st y b hy hb
    rw [hdata] at hb
    rcases hcase hy with ⟨rfl, rfl⟩ | hy
    · rw [hbytes] at hb
      cases hb
      exact hdesc
    · exact h.described st y b hy hb
  · intro st y hy
    rcases hcase hy with ⟨rfl, rfl⟩ | hy
    · exact hlogged
    · exact h.logged st y hy
  · intro keep hq
    rw [ht] at hq
    cases hq
    refine ⟨x, hnew, ?_⟩
    intro st y hy
    rcases hcase hy.side with ⟨rfl, rfl⟩ | hside
    · exact le_refl _
    · exact hbelow st y ⟨hside, hdata ▸ hy.data⟩

theorem Inv.remove (h : Inv sha256 log s) {keep : Stem} (hp : s.phase = .pruning keep)
    (hdata : ∀ st b, d.data st = some b → s.dir.data st = some b)
    (hside : ∀ st x, d.side st = some x → s.dir.side st = some x)
    (hkeep : d.data keep = s.dir.data keep ∧ d.side keep = s.dir.side keep) :
    Inv sha256 log { s with dir := d } ∧ Keeps s.dir d := by
  have hsub : ∀ {st x}, d.Complete st x → s.dir.Complete st x := fun ⟨hx, b, hb, hlen⟩ =>
    ⟨hside _ _ hx, b, hdata _ _ hb, hlen⟩
  obtain ⟨x, ⟨hx, b, hb, hlen⟩, hbelow⟩ := h.pruning keep hp
  have hstays : d.Complete keep x := ⟨hkeep.2.trans hx, b, hkeep.1.trans hb, hlen⟩
  refine ⟨⟨?_, fun st y hy => h.logged st y (hside _ _ hy), ?_, ?_⟩, fun st y hy =>
    ⟨keep, x, hstays, hbelow st y hy⟩⟩
  · exact fun st y bytes hy hbytes => h.described st y bytes (hside _ _ hy) (hdata _ _ hbytes)
  · intro st y hq
    rw [hp] at hq
    cases hq
  · intro keep' hq
    obtain rfl : keep = keep' := by
      rw [hp] at hq
      cases hq
      rfl
    exact ⟨x, hstays, fun st y hy => hbelow st y (hsub hy)⟩

theorem update_none {α : Type} {f : Stem → Option α} {st st' : Stem} {b : α}
    (h : Function.update f st none st' = some b) : f st' = some b := by
  by_cases he : st' = st
  · rw [he, update_self] at h
    cases h
  · rwa [update_of_ne he] at h

theorem step_inv (hlog : CommittedLog log) {s t : DirState} {a : Action} (h : Inv sha256 log s)
    (hfair : Fair log s a) (hclean : Clean s a) (hstep : step sha256 detectFormat s a = some t) :
    Inv sha256 log t ∧ Keeps s.dir t.dir := by
  cases a with
  | promote p listing nanos =>
    obtain ⟨⟨id, hid, hin⟩, hl, _, hside⟩ := hfair
    simp only [step] at hstep
    split at hstep
    · split_ifs at hstep with hv
      · cases hstep
        exact h.placed hid hin (below_of_verdict hlog h hl hid hin hv)
          (finalStem_free hside (hclean hv))
      · cases hstep
        exact ⟨h, .refl _⟩
    · cases hstep
  | writeMeta =>
    simp only [step] at hstep
    split at hstep
    · rename_i final x hp
      cases hstep
      exact h.writeMeta hp rfl
    · cases hstep
  | abort =>
    simp only [step] at hstep
    split at hstep
    · cases hstep
      exact ⟨h.idle s.extractorsHash, .refl _⟩
    · cases hstep
  | removeData st =>
    simp only [step] at hstep
    split at hstep
    · rename_i keep hp
      split_ifs at hstep with hne
      cases hstep
      exact h.remove hp (fun _ _ => update_none) (fun _ _ hx => hx)
        ⟨update_of_ne (Ne.symm hne) _ _, rfl⟩
    · cases hstep
  | removeMeta st =>
    simp only [step] at hstep
    split at hstep
    · rename_i keep hp
      split_ifs at hstep with hne
      cases hstep
      exact h.remove hp (fun _ _ hb => hb) (fun _ _ => update_none)
        ⟨rfl, update_of_ne (Ne.symm hne) _ _⟩
    · cases hstep
  | finish =>
    simp only [step] at hstep
    split at hstep
    · cases hstep
      exact ⟨h.idle s.extractorsHash, .refl _⟩
    · cases hstep
  | restart e =>
    cases hstep
    exact ⟨h.idle e, .refl _⟩

def Sound (log : LogId → Prop) (s : DirState) (a : Action) : Prop := Fair log s a ∧ Clean s a

/-- In every state reached the current pair's meta has the hash and the size of its data file, and
in every later state there is a current pair, of a log id that is not lower. -/
theorem reach_current (sha256 : List UInt8 → List UInt8) (detectFormat : List UInt8 → Option Nat)
    (log : LogId → Prop) (hlog : CommittedLog log) (h : String) (s : DirState)
    (hs : Reach (step sha256 detectFormat) (Sound log) (opened h) s) (l : List Stem)
    (hl : s.dir.Listed l) (x : Sidecar) (st : Stem)
    (hx : s.dir.current s.extractorsHash l = some (x, st)) :
    (∃ bytes, s.dir.data st = some bytes ∧ Describes sha256 x bytes) ∧
      ∀ t, Reach (step sha256 detectFormat) (Sound log) s t → ∀ l', t.dir.Listed l' →
        ∃ y st', t.dir.current t.extractorsHash l' = some (y, st') ∧
          newer x.lastLogId y.lastLogId = false := by
  have hinv : Inv sha256 log s := hs.inv (inv_opened h) fun _ _ _ hi ha he =>
    (step_inv hlog hi ha.1 ha.2 he).1
  obtain ⟨hcomplete, _⟩ := current_spec hl hx
  obtain ⟨bytes, hbytes, _⟩ := hcomplete.data
  refine ⟨⟨bytes, hbytes, hinv.described st x bytes hcomplete.side hbytes⟩, ?_⟩
  intro t ht l' hl'
  -- what a run keeps: the invariant, and a complete pair for each one of `s`
  obtain ⟨hinv', hkeeps⟩ : Inv sha256 log t ∧ Keeps s.dir t.dir := by
    refine Reach.inv (P := fun u => Inv sha256 log u ∧ Keeps s.dir u.dir) ht ⟨hinv, .refl _⟩ ?_
    intro u v a hu ha he
    obtain ⟨hv, hk⟩ := step_inv hlog hu.1 ha.1 ha.2 he
    exact ⟨hv, hu.2.trans hk⟩
  obtain ⟨st₁, y₁, hy₁, hle⟩ := hkeeps st x hcomplete
  cases hc : t.dir.current t.extractorsHash l' with
  | none => exact absurd hy₁ (current_eq_none hl' hc st₁ y₁)
  | some r =>
    obtain ⟨y, st'⟩ := r
    obtain ⟨hy, htop⟩ := current_spec hl' hc
    obtain ⟨a, ha, hina, hia⟩ := hinv.logged st x hcomplete.side
    obtain ⟨b, hb, hinb, hib⟩ := hinv'.logged st' y hy.side
    have hab : a.index ≤ b.index := by
      rw [← hia, ← hib]
      exact hle.trans (htop st₁ y₁ hy₁)
    refine ⟨y, st', rfl, ?_⟩
    simp only [newer, ha, hb, decide_eq_false_iff_not, not_lt]
    rcases hab.eq_or_lt with he | hlt
    · rw [(hlog a b hina hinb).1 he]
    · exact ((hlog a b hina hinb).2 hlt).le

end

def oneLeader (id : LogId) : Prop := id.term = 1 ∧ id.node = 1

theorem committedLog_oneLeader : CommittedLog oneLeader := by
  rintro ⟨t, n, i⟩ ⟨t', n', i'⟩ ⟨rfl, rfl⟩ ⟨rfl, rfl⟩
  refine ⟨fun h => by simpa using h, fun h => ?_⟩
  simp only [LogId.key, Prod.Lex.toLex_lt_toLex]
  simp [h]

def received (b : UInt8) : Promotion := ⟨[b], some ⟨1, 1, 5⟩, [], "s", false⟩

def plain : Stem := ⟨1, 5, none⟩

def again (nanos : Nat) : Stem := ⟨1, 5, some nanos⟩

def firstInstall : List Action := [.promote (received 1) [] 0, .writeMeta, .finish]

def secondInstall : List Action :=
  [.promote (received 2) [plain] 7, .writeMeta, .removeData plain, .restart "e"]

theorem update_ne_none {f : Stem → Option Sidecar} {st st' : Stem} {x : Sidecar} :
    Function.update f st (some x) st' ≠ none ↔ st' = st ∨ f st' ≠ none := by
  by_cases h : st' = st
  · simp [h]
  · simp [h]

theorem sound_firstInstall :
    Allowed (step id fun _ => none) (Sound oneLeader) (opened "e") firstInstall := by
  refine ⟨⟨⟨⟨_, rfl, rfl, rfl⟩, fun st => by simp [opened], rfl, rfl⟩, fun _ _ => rfl⟩,
    fun t ht => ?_⟩
  cases ht
  refine ⟨⟨trivial, trivial⟩, fun t ht => ?_⟩
  cases ht
  exact ⟨⟨trivial, trivial⟩, fun _ _ => trivial⟩

def firstDone : DirState :=
  ⟨⟨update (fun _ => none) plain (some [1]), update (fun _ => none) plain
    (some (sidecarOf id (fun _ => none) (opened "e") (received 1)))⟩, "e", .idle⟩

theorem reach_firstDone : Reach (step id fun _ => none) (Sound oneLeader) (opened "e") firstDone :=
  reach_run .start sound_firstInstall rfl

theorem listed_firstDone : firstDone.dir.Listed [plain] := fun st => by
  rw [firstDone, update_ne_none]
  simp

theorem sound_secondInstall :
    Allowed (step id fun _ => none) (Sound oneLeader) firstDone secondInstall := by
  refine ⟨⟨⟨⟨_, rfl, rfl, rfl⟩, listed_firstDone, rfl, rfl⟩, fun _ => nofun⟩, fun t ht => ?_⟩
  cases ht
  refine ⟨⟨trivial, trivial⟩, fun t ht => ?_⟩
  cases ht
  refine ⟨⟨trivial, trivial⟩, fun t ht => ?_⟩
  cases ht
  exact ⟨⟨trivial, trivial⟩, fun _ _ => trivial⟩

def secondCut : DirState :=
  ⟨⟨update (update firstDone.dir.data (again 7) (some [2])) plain none,
    update firstDone.dir.side (again 7)
      (some (sidecarOf id (fun _ => none) firstDone (received 2)))⟩, "e", .idle⟩

theorem reach_secondCut : Reach (step id fun _ => none) (Sound oneLeader) firstDone secondCut :=
  reach_run .start sound_secondInstall rfl

theorem listed_secondCut : secondCut.dir.Listed [plain, again 7] := fun st => by
  rw [secondCut, update_ne_none, ← listed_firstDone st]
  simp [or_comm]

/-- The third install finds the first data name free, and the meta left there takes its
file for the first one, which had the same size. -/
theorem leftover_meta_is_current : ∃ s l x st,
    Reach (step id fun _ => none) (Fair oneLeader) (opened "e") s ∧ s.dir.Listed l ∧
      s.dir.current s.extractorsHash l = some (x, st) ∧ s.dir.data st = some [3] ∧
      ¬ Describes id x [3] := by
  have hreach := (reach_firstDone.trans reach_secondCut).mono fun h => h.1
  have hthird : Fair oneLeader secondCut (.promote (received 3) [plain, again 7] 8) :=
    ⟨⟨_, rfl, rfl, rfl⟩, listed_secondCut, rfl, rfl⟩
  refine ⟨_, [plain, again 7], sidecarOf id (fun _ => none) (opened "e") (received 1), plain,
    hreach.next hthird rfl, listed_secondCut, by decide +kernel, rfl, fun h => ?_⟩
  exact absurd h.1 (by decide)

theorem reach_current_cut : ∃ s, Reach (step id fun _ => none) (Sound oneLeader) firstDone s ∧
    s.dir.data plain = none ∧ s.dir.side plain ≠ none ∧
    (∃ bytes, s.dir.data (again 7) = some bytes ∧
      Describes id (sidecarOf id (fun _ => none) firstDone (received 2)) bytes) ∧
    ∃ y st, s.dir.current s.extractorsHash [plain, again 7] = some (y, st) ∧
      newer (some ⟨1, 1, 5⟩) y.lastLogId = false := by
  have hbuild : Sound oneLeader secondCut
      (.promote { received 2 with reuseSameIndex := true } [plain, again 7] 8) :=
    ⟨⟨⟨_, rfl, rfl, rfl⟩, listed_secondCut, rfl, rfl⟩, fun hnew => absurd hnew (by decide +kernel)⟩
  have hreach := reach_secondCut.next hbuild (t := secondCut) rfl
  have hcurrent := reach_current id (fun _ => none) oneLeader committedLog_oneLeader "e"
  refine ⟨_, hreach, rfl, nofun, ?_, ?_⟩
  · exact (hcurrent _ (reach_firstDone.trans hreach) _ listed_secondCut _ (again 7) rfl).1
  · exact (hcurrent _ reach_firstDone _ listed_firstDone _ plain rfl).2 _ hreach _ listed_secondCut

end DirState
end MemoryGraph.Server
