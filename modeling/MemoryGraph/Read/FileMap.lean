import MemoryGraph.Batch.Printed
import MemoryGraph.Read.Lookup
import MemoryGraph.Store.Repeat

/-! What the store is for: a map from paths to files. -/

namespace MemoryGraph
open Lib Codec Option Function
variable {S : Setting} {w : Write} {s s' : State S} {org repo path : String}
  {k : String × String × String}

abbrev FileMap := String × String × String → Option Write

inductive Change
  | ingest (w : Write)
  | refresh (k : String × String × String) (language fingerprint : String) (origin : Option String)
  | prune (org repo : String) (keep : List String) (dryRun : Bool)
  | vacuum

def Write.refreshed (fp : String) (origin : Option String) (w : Write) : Write :=
  if w.fm.fingerprint = some fp then { w with fm := { w.fm with origin } } else w

/-- The files a prune is for: found by a walk of the repo's directory once, and not listed now. -/
def Write.Pruned (org repo : String) (keep : List String) (dryRun : Bool) (w : Write) : Prop :=
  dryRun = false ∧ (w.org, w.repo) = (org, repo) ∧ normalizePath w.path ∉ keep.map normalizePath ∧
    w.fm.origin = some originDirectory

instance (keep : List String) (dryRun : Bool) : Decidable (w.Pruned org repo keep dryRun) :=
  inferInstanceAs (Decidable (_ ∧ _))

def Change.files (m : FileMap) : Change → FileMap
  | ingest w => update m w.key (some w)
  | refresh k _ fp origin => update m k ((m k).map (Write.refreshed fp origin))
  | prune org repo keep dryRun => fun k => (m k).filter fun w => ¬ w.Pruned org repo keep dryRun
  | vacuum => m

def Change.exec (sha256 : List UInt8 → List UInt8) (d : Data) : Change → Except StoreError Data
  | ingest w => return (← w.apply sha256 d).1
  | refresh k lang fp origin =>
      return (d.checkUnchanged k.1 k.2.1 k.2.2 lang fp origin).elim d Prod.fst
  | prune org repo keep dryRun => return (← d.pruneIn org repo keep dryRun).1
  | vacuum => return (← d.vacuumIn sha256).1

/-- A change in its own transaction: one that fails is rolled back. -/
def Change.apply (sha256 : List UInt8 → List UInt8) (p : Data × FileMap) (c : Change) :
    Data × FileMap :=
  match c.exec sha256 p.1 with
  | .ok d => (d, c.files p.2)
  | .error _ => p

def Change.Fits (S : Setting) : Change → Prop
  | ingest w => w.Fits S
  | _ => True

/-- What the store has at a path where the map has `o`. -/
def Shows (s : State S) (k : String × String × String) : Option Write → Prop
  | none => s.slot k = none
  | some w =>
      w.key = k ∧ w.Fits S ∧ checkIngest w.org w.repo w.language w.ex = .ok () ∧ ∃ repoId fid ids,
      s.slot k = some (some (w.node repoId fid), some (w.stream ids)) ∧ w.Ids s.entries ids

def Holds (s : State S) (m : FileMap) : Prop := ∀ k, Shows s k (m k)

variable {m : FileMap}

theorem Shows.frame {o : Option Write} (h : Shows s k o) (hslot : s'.slot k = s.slot k)
    (hids : ∀ f (w : Write) ids, s.streams f = some (w.stream ids) → w.Ids s.entries ids →
      w.Ids s'.entries ids) :
    Shows s' k o := by
  cases o with
  | none => exact hslot.trans h
  | some w =>
    obtain ⟨hkey, hfits, hchecked, repoId, fid, ids, hs, hw⟩ := h
    obtain ⟨f, -, hf⟩ := map_eq_some_iff.mp hs
    exact ⟨hkey, hfits, hchecked, repoId, fid, ids, hslot.trans hs,
      hids f w ids (congrArg Prod.snd hf) hw⟩

theorem Holds.wrote (h : Holds s m) (hw : Wrote s w s') : Holds s' (update m w.key (some w)) := by
  intro k
  by_cases hk : k = w.key
  · obtain ⟨-, -, -, repoId, fid, ids, -, hids, hslot⟩ := hw.filled
    rw [hk, update_self]
    exact ⟨rfl, hw.fits, hw.checked, repoId, fid, ids, hslot, hids⟩
  · rw [update_of_ne hk]
    exact (h k).frame (hw.frame hk) fun _ _ _ _ hids => hids.imp fun _ _ hm => hw.grows.1 hm

theorem slot_of_isFile {f : Nat} (h : IsFile s.data.nodes k.1 k.2.1 k.2.2 f) :
    s.slot k = some (s.data.nodes.get f, s.streams f) := by
  rw [State.slot, (fileId_eq_some s.whole.inv.entities).mpr h, map_some]

theorem slot_eq_none : s.slot k = none ↔ ∀ f, ¬IsFile s.data.nodes k.1 k.2.1 k.2.2 f := by
  rw [State.slot, map_eq_none_iff, eq_none_iff_forall_ne_some]
  exact forall_congr' fun f => not_congr (fileId_eq_some s.whole.inv.entities)

theorem Holds.vacuumed (h : Holds s m) (hnodes : s'.data.nodes = s.data.nodes)
    (hstreams : s'.streams = s.streams)
    (hmem : ∀ e, e ∈ s'.entries ↔ e ∈ s.entries ∧ Live s.streams e.1) : Holds s' m := by
  intro k
  refine (h k).frame ?_ fun f w ids hf hw => forall₂_live hw fun e he huse =>
    (hmem e).mpr ⟨he, f, _, hf, huse⟩
  have hfile : s'.data.fileId k.1 k.2.1 k.2.2 = s.data.fileId k.1 k.2.1 k.2.2 := by
    refine ext fun f => ?_
    rw [fileId_eq_some s'.whole.inv.entities, fileId_eq_some s.whole.inv.entities, hnodes]
  rw [State.slot, State.slot, hfile, hnodes, hstreams]

theorem Holds.pruned (h : Holds s m) {keep : List String} {dryRun : Bool} {removed : List String}
    (hcall : s.data.pruneIn org repo keep dryRun = .ok (s'.data, removed))
    (hentries : s'.entries = s.entries)
    (hstreams : ∀ i n, s'.data.nodes.get i = some n → n.kind = .file → s'.streams i = s.streams i) :
    Holds s' fun k => (m k).filter fun w => ¬ w.Pruned org repo keep dryRun := by
  intro k
  change Shows s' k ((m k).filter _)
  have hk := h k
  have hsub : ∀ f, IsFile s'.data.nodes k.1 k.2.1 k.2.2 f → IsFile s.data.nodes k.1 k.2.1 k.2.2 f :=
    fun f hf =>
    hf.mono (fun n hn => pruned_sub hcall hn) fun i n hn _ => pruned_sub hcall hn
  cases hm : m k with
  | none =>
    rw [hm] at hk
    exact slot_eq_none.mpr fun f hf => slot_eq_none.mp hk f (hsub f hf)
  | some w =>
    rw [hm] at hk
    obtain ⟨rfl, -, -, repoId, fid, ids, hslot, -⟩ := id hk
    -- the files the pass takes, by the write that made them
    have hleft : ∀ f, IsFile s.data.nodes w.key.1 w.key.2.1 w.key.2.2 f →
        s.data.nodes.get f = some (w.node repoId fid) ∧
        (s'.data.nodes.get f = some (w.node repoId fid) ↔ ¬ w.Pruned org repo keep dryRun) := by
      intro f hf
      have hn : s.data.nodes.get f = some (w.node repoId fid) :=
        (Prod.mk.inj (some.inj ((slot_of_isFile hf).symm.trans hslot))).1
      have hmem : f ∈ s.data.filesOf org repo ↔ (w.org, w.repo) = (org, repo) := by
        rw [mem_filesOf s.whole.inv.entities]
        constructor
        · rintro ⟨path, hf'⟩
          exact congrArg (fun k => (k.1, k.2.1)) (hf.unique hf')
        · intro he
          obtain ⟨rfl, rfl⟩ := Prod.mk.inj he
          exact ⟨_, hf⟩
      rw [pruneIn_nodes hcall, Taken, hmem, prunes, decide_eq_true_iff]
      exact ⟨hn, and_iff_right hn⟩
    rw [filter_some]
    by_cases hp : w.Pruned org repo keep dryRun
    · rw [if_neg (by simpa using hp)]
      refine slot_eq_none.mpr fun f hf => ?_
      obtain ⟨n, -, hn, -⟩ := id hf
      obtain ⟨hold, hleft⟩ := hleft f (hsub f hf)
      exact hleft.mp (hn.trans (hold ▸ (pruned_sub hcall hn).symm)) hp
    · obtain ⟨f, hf, -⟩ := map_eq_some_iff.mp hslot
      have hf := (fileId_eq_some s.whole.inv.entities).mp hf
      obtain ⟨hold, hleft⟩ := hleft f hf
      have hn := hleft.mpr hp
      have hf' := hf.mono (fun n hm => by rwa [← hm, hold]) fun i n hm hk => pruned_keep hcall hm hk
      rw [if_pos (by simpa using hp)]
      refine hk.frame ?_ fun _ _ _ _ hw => hentries ▸ hw
      rw [slot_of_isFile hf', slot_of_isFile hf, hn, hold, hstreams f _ hn rfl]

theorem Holds.refreshed (h : Holds s m) (k : String × String × String) (lang fp : String)
    (origin : Option String) :
    ∃ s' : State S, s'.data = (s.data.checkUnchanged k.1 k.2.1 k.2.2 lang fp origin).elim s.data
      Prod.fst ∧ Holds s' (update m k ((m k).map (Write.refreshed fp origin))) := by
  have hk := h k
  cases hm : m k with
  | none =>
    rw [hm] at hk
    rw [Data.checkUnchanged, map_eq_none_iff.mp hk, map_none, ← hm, update_eq_self]
    exact ⟨s, rfl, h⟩
  | some w =>
    rw [hm] at hk
    obtain ⟨rfl, hfits, hchecked, repoId, fid, ids, hslot, hids⟩ := hk
    obtain ⟨f, hf, hrow⟩ := map_eq_some_iff.mp hslot
    obtain ⟨hn, hst⟩ := Prod.mk.inj hrow
    obtain rfl : fid = f := (s.whole.inv.entities.ids _ _ hn).1
    rw [map_some, Write.refreshed]
    cases hc : s.data.checkUnchanged w.key.1 w.key.2.1 w.key.2.2 lang fp origin with
    | none =>
      have hfp : w.fm.fingerprint ≠ some fp := by
        intro hfp
        rw [Data.checkUnchanged, hf, bind_eq_bind, bind_some, hn] at hc
        simp [Write.node, fileNode, hfp] at hc
      rw [if_neg hfp, ← hm, update_eq_self]
      exact ⟨s, rfl, h⟩
    | some r =>
      obtain ⟨_, _, hf', hn', hfp, -⟩ := checkUnchanged_eq_some hc
      obtain rfl := mem_unique hf hf'
      obtain rfl := mem_unique hn hn'
      have hfp : w.fm.fingerprint = some fp := hfp
      obtain ⟨s', hw, hs'⟩ := wrote_of_refreshed (w := { w with fm := { w.fm with origin } })
        ⟨hfits.1, hfits.2, hfits.3, hfits.4, hfits.5⟩ hchecked hc hf hn rfl hst hids
      rw [if_pos hfp]
      exact ⟨s', hs', h.wrote hw⟩

theorem Holds.apply (h : Holds s m) {c : Change} (hc : c.Fits S) :
    ∃ s' : State S, s'.data = (c.apply S.sha256 (s.data, m)).1 ∧
      Holds s' (c.apply S.sha256 (s.data, m)).2 := by
  unfold Change.apply
  cases hx : c.exec S.sha256 s.data with
  | error e => exact ⟨s, rfl, h⟩
  | ok d' =>
    cases c with
    | ingest w =>
      obtain ⟨⟨_, stats⟩, hcall, hx⟩ := bind_eq_ok.mp hx
      cases hx
      obtain ⟨s', hs', hwrote, -⟩ := wrote_of_apply s hc hcall
      exact ⟨s', hs', h.wrote hwrote⟩
    | refresh k lang fp origin =>
      obtain ⟨s', hs', hholds⟩ := h.refreshed k lang fp origin
      exact ⟨s', hs'.trans (Except.ok.inj hx), hholds⟩
    | prune org repo keep dryRun =>
      obtain ⟨⟨_, removed⟩, hcall, hx⟩ := bind_eq_ok.mp hx
      cases hx
      obtain ⟨s', rfl, hentries, hstreams⟩ := exists_pruned s hcall
      exact ⟨s', rfl, h.pruned hcall hentries hstreams⟩
    | vacuum =>
      obtain ⟨⟨_, stats, nothing⟩, hcall, hx⟩ := bind_eq_ok.mp hx
      cases hx
      obtain ⟨s', hs', hnodes, hstreams, hmem⟩ := exists_vacuumed s hcall
      exact ⟨s', hs', h.vacuumed hnodes hstreams hmem⟩

theorem Holds.run (cs : List Change) (hcs : ∀ c ∈ cs, c.Fits S) (h : Holds s m) :
    ∃ s' : State S, s'.data = (cs.foldl (Change.apply S.sha256) (s.data, m)).1 ∧
      Holds s' (cs.foldl (Change.apply S.sha256) (s.data, m)).2 := by
  induction cs generalizing s m with
  | nil => exact ⟨s, rfl, h⟩
  | cons c cs ih =>
    obtain ⟨s₁, hs₁, h₁⟩ := h.apply (hcs c (.head _))
    have hrest := ih (fun c hc => hcs c (.tail _ hc)) h₁
    rwa [hs₁] at hrest

/-- What a reader finds at a path: the row of its file, and the symbols and the tokens in the
order of their spans. -/
structure Write.ReadAt (w : Write) (d : Data) (org repo path : String) (fid : Nat) : Prop where
  file : d.fileId org repo path = some fid
  row : ∃ repoId, d.get fid = .ok (some (w.node repoId fid))
  symbols : ∃ st, d.stream fid = .ok (some st) ∧
      st.symbols.map (fun r => (d.terms.text r.name, r.kind, r.langKind.map d.terms.text, r.span,
        r.owner.map d.terms.text)) =
    (sortedSyms w.ex).map fun x => (.ok x.name, x.kind, x.langKind.map .ok, x.span, x.owner.map .ok)
  tokens : ∃ ns, d.fileTokens org repo path = .ok (some ns) ∧
    ns.map (fun n => (n.kind, n.name, n.tokenClass, n.span)) =
      (sortedToks w.ex).map fun t => (.token, t.text, some t.cls, some t.span)

theorem fileTokens_eq (hpath : normalizePath path = path) {f : Nat} {st : Stream}
    (hf : s.data.fileId org repo path = some f) (hst : s.streams f = some st) :
    s.data.fileTokens org repo path =
      .ok (some (st.tokens.zipIdx.map fun p => tokNodeOf s.entries f p.2 p.1)) := by
  have hcontent := s.whole.inv.content
  have hstream := stream_eq hcontent f
  rw [hst, map_some] at hstream
  have hnodes : st.tokens.zipIdx.mapM (fun p => tokNode s.data.terms.text f p.2 p.1) =
      .ok (st.tokens.zipIdx.map fun p => tokNodeOf s.entries f p.2 p.1) :=
    mapM_ok fun p hp =>
      have hitem : InStream st.readBack (.inr p) := List.mem_zipIdx_iff_getElem?.mp hp
      itemNode_eq hcontent hst hitem
  rw [Data.fileTokens, hpath, hf]
  dsimp only
  rw [hstream]
  exact congrArg (some <$> ·) hnodes

theorem Shows.readAt (h : Shows s (org, repo, path) (some w)) :
    ∃ fid, w.ReadAt s.data org repo path fid := by
  obtain ⟨hkey, -, -, repoId, fid, ids, hslot, hids⟩ := h
  obtain ⟨f, hf, hrow⟩ := map_eq_some_iff.mp hslot
  obtain ⟨hnode, hst⟩ := Prod.mk.inj hrow
  obtain rfl : fid = f := (s.whole.inv.entities.ids _ _ hnode).1
  have hcontent := s.whole.inv.content
  have hstream := stream_eq hcontent fid
  rw [hst, map_some] at hstream
  have hpath : normalizePath path = path := by
    obtain ⟨-, -, rfl⟩ : w.org = org ∧ w.repo = repo ∧ normalizePath w.path = path := by
      simpa [Write.key] using hkey
    exact normalizePath_idem _
  have htext : ∀ {k : Nat} {t : String}, Numbers (V2Prep.build w.ex).terms k t →
      s.data.terms.text (ids.getD k 0) = .ok t := fun hk =>
    hcontent.dict.text_eq.mpr (mem_of_numbers hids hk)
  have hopt : ∀ {o : Option Nat} {t : Option String},
      Option.Rel (Numbers (V2Prep.build w.ex).terms) o t →
      (o.map (fun k => ids.getD k 0)).map s.data.terms.text = t.map .ok := by
    intro o t hrel
    cases hrel with
    | none => rfl
    | some hk => exact congrArg some (htext hk)
  refine ⟨fid, hf, ⟨repoId, get_entity s.whole.inv hnode⟩,
    ⟨_, hstream, (map_ranged (fun _ _ => rfl) _).trans ?_⟩, _, fileTokens_eq hpath hf hst, ?_⟩
  · rw [Write.stream, Stream.withIds, List.map_map]
    refine map_eq_of_forall₂ (build_spelled w.ex).symbols fun r x hr => ?_
    change (s.data.terms.text (ids.getD r.name 0), r.kind, (r.langKind.map _).map _, r.span,
      (r.owner.map _).map _) = _
    rw [htext hr.name, hr.kind, hopt hr.langKind, hr.span, hopt hr.owner]
  · have hfst : ∀ ts : List TokRec, (ts.zipIdx.map fun p => tokNodeOf s.entries fid p.2 p.1).map
        (fun n => (n.kind, n.name, n.tokenClass, n.span)) =
          ts.map fun r => (.token, textAt s.entries r.term, some r.cls, some r.span) := by
      intro ts
      conv_rhs => rw [← List.zipIdx_map_fst 0 ts, List.map_map]
      rw [List.map_map]
      rfl
    rw [hfst, Write.stream, Stream.withIds, List.map_map]
    refine map_eq_of_forall₂ (build_spelled w.ex).tokens fun r t hr => ?_
    change (NodeKind.token, textAt s.entries (ids.getD r.term 0), some r.cls, some r.span) = _
    rw [textAt_of_numbers hcontent.dict hids hr.term, hr.cls, hr.span]

/-- After any changes, a reader finds at every path the file that the map has there, and no
file where it has none. -/
theorem files_read_back (S : Setting) (cs : List Change) (hcs : ∀ c ∈ cs, c.Fits S)
    (org repo path : String) :
    let p := cs.foldl (Change.apply S.sha256) (Data.empty, fun _ => none)
    (p.2 (org, repo, path) = none → p.1.fileId org repo path = none) ∧
      ∀ w, p.2 (org, repo, path) = some w → ∃ fid, w.ReadAt p.1 org repo path fid := by
  intro p
  have hempty : Holds (State.empty S) fun _ => none := fun _ => rfl
  obtain ⟨s, hs, hholds⟩ := hempty.run cs hcs
  change s.data = p.1 at hs
  have hpath : Shows s _ (p.2 (org, repo, path)) := hholds _
  rw [← hs]
  refine ⟨fun hnone => ?_, fun w hw => ?_⟩
  · rw [hnone] at hpath
    exact map_eq_none_iff.mp hpath
  · rw [hw] at hpath
    exact hpath.readAt

def sampleWrite (path : String) : Write := ⟨"o", "r", path, "Rust", sampleContent, sampleMeta⟩

def sampleChanges : List Change :=
  [.ingest (sampleWrite "src/a.rs"), .ingest (sampleWrite "./src/b.rs"),
    .prune "o" "r" ["src/b.rs"] false, .vacuum]

theorem files_read_back_pruned :
    let p := sampleChanges.foldl (Change.apply id) (Data.empty, fun _ => none)
    p.1.fileId "o" "r" "src/a.rs" = none ∧
      ∃ fid, (sampleWrite "./src/b.rs").ReadAt p.1 "o" "r" "src/b.rs" fid := by
  have hfits : ∀ c ∈ sampleChanges, c.Fits ⟨id, Set.univ, injective_id.injOn⟩ := by
    simp only [sampleChanges, List.forall_mem_cons]
    refine ⟨⟨⟨?_, ⟨?_, ?_, ?_⟩, ?_⟩, ?_, ?_, ?_, fun _ _ => trivial⟩,
      ⟨⟨?_, ⟨?_, ?_, ?_⟩, ?_⟩, ?_, ?_, ?_, fun _ _ => trivial⟩, trivial, trivial,
      fun _ h => (by cases h)⟩
    all_goals decide +kernel
  exact ⟨(files_read_back _ _ hfits "o" "r" "src/a.rs").1 (by decide +kernel),
    (files_read_back _ _ hfits "o" "r" "src/b.rs").2 _ (by decide +kernel)⟩

end MemoryGraph
