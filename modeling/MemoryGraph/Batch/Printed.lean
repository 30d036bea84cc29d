import MemoryGraph.Batch.Lineage

/-! Skipping an unchanged file is the same as storing it again. -/

namespace MemoryGraph
open Lib Codec Option
variable {stats : IngestStats} {dirty : Bool}

structure Made {L : Lineage} (s : State L.toSetting) (fid : Nat) (n : Node) (fp : String)
    (w : Write) (repoId : Nat) (ids : List Nat) : Prop where
  source : ∃ x f opts, L.Has x ∧ f.bytes ∈ L.known ∧ x.write w.org w.repo f opts = .ok w
  fingerprint : w.fm.fingerprint = some fp
  checked : checkIngest w.org w.repo w.language w.ex = .ok ()
  file : IsFile s.data.nodes w.org w.repo (normalizePath w.path) fid
  node : n = { w.node repoId fid with origin := n.origin }
  stream : s.streams fid = some (w.stream ids)
  ids : w.Ids s.entries ids

def Printed {L : Lineage} (s : State L.toSetting) : Prop :=
  ∀ fid n fp, s.data.nodes.get fid = some n → n.kind = .file → n.fingerprint = some fp →
    ∃ w repoId ids, Made s fid n fp w repoId ids

variable {L : Lineage}

theorem printed_empty : Printed (State.empty L.toSetting) := fun _ _ _ h => by cases h

theorem nulFree_of_asciiLower {s : String} (h : NulFree (asciiLower s)) : NulFree s := by
  intro hm
  refine h ?_
  rw [asciiLower, String.toList_ofList]
  exact List.mem_map.mpr ⟨_, hm, by decide⟩

theorem checkIngest_congr {org repo l l' : String} {ex : Extraction}
    (hl : asciiLower l = asciiLower l') (h : checkIngest org repo l ex = .ok ()) :
    checkIngest org repo l' ex = .ok () := by
  have hfree : NulFree l' :=
    nulFree_of_asciiLower (hl ▸ nulFree_asciiLower (checkIngest_spec h).2.2.1)
  obtain ⟨_, hempty, h⟩ := bind_eq_ok.mp h
  obtain ⟨_, horg, h⟩ := bind_eq_ok.mp h
  obtain ⟨_, hrepo, h⟩ := bind_eq_ok.mp h
  obtain ⟨_, -, h⟩ := bind_eq_ok.mp h
  have hlang : rejectNul "language" l' = .ok () := failIf_eq_ok.mpr hfree
  exact bind_eq_ok.mpr ⟨_, hempty,
    bind_eq_ok.mpr ⟨_, horg, bind_eq_ok.mpr ⟨_, hrepo, bind_eq_ok.mpr ⟨_, hlang, h⟩⟩⟩⟩

def Lineage.Makes (L : Lineage) (w : Write) : Prop :=
  w.fm.fingerprint = none ∨ ∃ x f opts, L.Has x ∧ f.bytes ∈ L.known ∧
    x.write w.org w.repo f opts = .ok w

theorem Made.mono {s s' : State L.toSetting} {fid : Nat} {n : Node} {fp : String} {w : Write}
    {repoId : Nat} {ids : List Nat} (h : Made s fid n fp w repoId ids)
    (hfile : ∀ {org repo path}, IsFile s.data.nodes org repo path fid →
      IsFile s'.data.nodes org repo path fid) (hstream : s'.streams fid = s.streams fid)
    (hids : w.Ids s'.entries ids) :
    Made s' fid n fp w repoId ids :=
  ⟨h.source, h.fingerprint, h.checked, hfile h.file, h.node, hstream.trans h.stream, hids⟩

theorem Printed.wrote {s s' : State L.toSetting} (hp : Printed s) {w : Write} (hw : L.Makes w)
    (h : Wrote s w s') : Printed s' := by
  obtain ⟨repoId, fid, ids, hat⟩ := h.at_file
  intro g n fp hn hk hfp
  by_cases hg : g = fid
  · subst hg
    obtain rfl := mem_unique hat.node hn
    rcases hw with hnone | hsource
    · exact absurd (hnone.symm.trans hfp) (by simp)
    · refine ⟨w, repoId, ids, hsource, hfp, h.checked, ?_, rfl, ?_, hat.ids⟩
      · exact (fileId_eq_some s'.whole.inv.entities).mp hat.fileId
      · rw [hat.streams, Function.update_self]
  · obtain ⟨w', repoId', ids', hmade⟩ := hp g n fp (hat.back g n hg hk hn) hk hfp
    refine ⟨w', repoId', ids', hmade.mono (hat.isFile_iff hg).mpr ?_ (hmade.ids.imp fun _ _ hm =>
      hat.entries hm)⟩
    rw [hat.streams, Function.update_of_ne hg]

theorem exists_refreshed {S : Setting} (s : State S) {d' : Data} {org repo path lang fp : String}
    {origin : Option String}
    (h : s.data.checkUnchanged org repo path lang fp origin = some (d', stats, dirty)) :
    ∃ s' : State S, s'.data = d' ∧ s'.streams = s.streams ∧ s'.base = s.base := by
  obtain ⟨hinv, hsyms, hcat⟩ := inv_refresh s.whole.inv h
  refine ⟨⟨d', s.streams, s.entries, ⟨hinv, hcat s.whole.catalog, fun hb =>
    hsyms (s.whole.symbols hb)⟩, s.texts⟩, rfl, rfl, ?_⟩
  obtain ⟨fid, n, hfid, hn, -, rfl, -⟩ := checkUnchanged_eq_some h
  obtain ⟨m, -, hm, hk, -⟩ := (fileId_eq_some s.whole.inv.entities).mp hfid
  obtain rfl := mem_unique hn hm
  refine Base.ext rfl rfl rfl rfl (funext fun i => ?_)
  change ((s.data.nodes.insert fid { n with origin }).get i).filter _ =
    (s.data.nodes.get i).filter _
  rw [Table.get_insert]
  split_ifs with hi
  · rw [← hi, hn, filter_some, filter_some, hk]
    rfl
  · rfl

theorem wrote_of_refreshed {S : Setting} {s : State S} {w : Write} {d' : Data} {lang fp : String}
    {fid repoId : Nat} {n : Node} {ids : List Nat} (hfits : w.Fits S)
    (hchecked : checkIngest w.org w.repo w.language w.ex = .ok ())
    (h : s.data.checkUnchanged w.org w.repo (normalizePath w.path) lang fp w.fm.origin =
      some (d', stats, dirty))
    (hfid : s.data.fileId w.org w.repo (normalizePath w.path) = some fid)
    (hn : s.data.nodes.get fid = some n) (hnode : n = { w.node repoId fid with origin := n.origin })
    (hstream : s.streams fid = some (w.stream ids)) (hids : w.Ids s.entries ids) :
    ∃ s', Wrote s w s' ∧ s'.data = d' := by
  obtain ⟨_, _, hfid', hn', -, hd', -⟩ := checkUnchanged_eq_some h
  obtain rfl := mem_unique hfid hfid'
  obtain rfl := mem_unique hn hn'
  obtain ⟨s₁, hs₁, hstreams₁, hbase₁⟩ := exists_refreshed s h
  obtain ⟨orgId, rid, hplaced⟩ := fileId_eq_placed.mp hfid
  obtain ⟨-, m, hm, -, -, hpar⟩ := hplaced.nodes s.whole.inv.entities
  obtain rfl := mem_unique hn hm
  obtain rfl : repoId = rid := by
    rw [hnode] at hpar
    exact some.inj hpar
  have hfills : w.Fills S s.base (some (some (w.node repoId fid), some (w.stream ids))) :=
    ⟨hfits, hchecked, orgId, repoId, fid, ids, hplaced, hids, rfl⟩
  obtain ⟨s', hwrote, hbase⟩ := hfills.settled
  have hslot : s'.slot w.key = some (some (w.node repoId fid), some (w.stream ids)) := by
    have hown := hwrote.filled
    rw [hbase] at hown
    exact hown.unique hfills
  have hnode₁ : s₁.data.nodes.get fid = some (w.node repoId fid) := by
    rw [hs₁, hd', Table.get_insert_self, hnode]
    rfl
  have hfile : ∀ k : String × String × String, s₁.data.fileId k.1 k.2.1 k.2.2 =
      s.data.fileId k.1 k.2.1 k.2.2 := by
    intro k
    have hnames : s₁.data.names = s.data.names := congrArg Base.names hbase₁
    unfold Data.fileId Data.repoId
    rw [hnames]
  have heq : s' = s₁ := by
    refine State.eq_of_slots (hbase.trans hbase₁.symm) (funext fun k => ?_)
    by_cases hk : k = w.key
    · rw [hk, hslot, State.slot, hfile, Write.key]
      dsimp only
      rw [hfid, map_some, hnode₁, hstreams₁, hstream]
    · rw [hwrote.frame hk, State.slot, State.slot, hfile]
      cases hg : s.data.fileId k.1 k.2.1 k.2.2 with
      | none => rfl
      | some g =>
        have hne : fid ≠ g := by
          rintro rfl
          exact hk (((fileId_eq_some s.whole.inv.entities).mp hg).unique
            ((fileId_eq_some s.whole.inv.entities).mp hfid))
        rw [map_some, map_some, hs₁, hd', hstreams₁, Table.get_insert_of_ne _ _ hne]
  exact ⟨s', hwrote, heq ▸ hs₁⟩

section
variable {x : Indexer} {org repo : String} {f : BatchFile} {opts : IndexOptions}
  {s : State L.toSetting}

theorem write_of_printed (hp : Printed s) (hx : L.Has x) (hf : f.bytes ∈ L.known)
    {src : Indexer.Source} (hsrc : x.readSource f opts = .ok src) {fid : Nat} {n : Node}
    (hfid : s.data.fileId org repo (normalizePath f.path) = some fid)
    (hn : s.data.nodes.get fid = some n)
    (hfp : n.fingerprint = some (x.sourced org repo f src).fingerprint) :
    ∃ w repoId ids, x.write org repo f opts = .ok w ∧
      checkIngest org repo w.language w.ex = .ok () ∧
      n = { w.node repoId fid with origin := n.origin } ∧ s.streams fid = some (w.stream ids) ∧
      w.Ids s.entries ids := by
  have hfile := (fileId_eq_some s.whole.inv.entities).mp hfid
  obtain ⟨m, -, hm, hk, hname, -⟩ := id hfile
  obtain rfl := mem_unique hn hm
  obtain ⟨w', repoId, ids, ⟨y, g, opts', hy, hg, hw'⟩, hfp', hchecked, hfile', hnode, hstream,
    hids⟩ := hp fid n _ hn hk hfp
  obtain ⟨t, ex, ht, -, hkept, hweq⟩ := Indexer.write_eq_ok hw'
  have hprint : x.fingerprint f.bytes src.language src.encoding src.lossy =
      y.fingerprint g.bytes t.language t.encoding t.lossy := by
    rw [hweq] at hfp'
    exact (some.inj hfp').symm
  obtain ⟨hlang, henc, hlossy, hex⟩ := source_unique hx hy hf hg hsrc ht hprint
  have hkind : (x.extracted f src).1 = .extracted ex := by
    rcases extractChecked_kept x.registry (normalizePath f.path) src.language src.text with ⟨ex',
      h1, h2⟩ | ⟨h1, -⟩
    · rw [hex, hkept] at h1
      cases h1
      exact h2
    · rw [hex, hkept] at h1
      cases h1
  obtain ⟨horg, hrepo, hpath⟩ : org = w'.org ∧ repo = w'.repo ∧
    normalizePath f.path = normalizePath w'.path := by
    simpa using hfile.unique hfile'
  refine ⟨⟨org, repo, normalizePath f.path, src.language, ex, (x.sourced org repo f src).fileMeta⟩,
    repoId, ids, ?_, ?_, ?_, ?_, ?_⟩
  · unfold Indexer.write
    rw [hsrc]
    dsimp only
    rw [hkind]
  · rw [← horg, ← hrepo] at hchecked
    rw [hweq] at hchecked
    exact checkIngest_congr hlang.symm hchecked
  · refine hnode.trans ?_
    rw [hweq] at hpath ⊢
    rw [← henc, ← hlossy] at hprint
    simp only [Write.node, fileNode, PreparedFile.fileMeta, Indexer.sourced, Indexer.blankPrepared,
      normalizePath_idem, ← hlang, ← henc, ← hlossy] at hpath ⊢
    rw [hpath, hprint]
  · rw [hstream, hweq]
    rfl
  · rw [hweq] at hids
    exact hids

theorem wrote_of_unchanged (hp : Printed s) (hx : L.Has x) (hf : L.Fits x opts f)
    {src : Indexer.Source} (hsrc : x.readSource f opts = .ok src) {d' : Data} {lang : String}
    (h : s.data.checkUnchanged org repo (normalizePath f.path) lang
      (x.sourced org repo f src).fingerprint f.origin = some (d', stats, dirty)) :
    ∃ w s', x.write org repo f opts = .ok w ∧ Wrote s w s' ∧ s'.data = d' := by
  obtain ⟨fid, n, hfid, hn, hfp, -⟩ := checkUnchanged_eq_some h
  obtain ⟨w, repoId, ids, hw, hchecked, hnode, hstream, hids⟩ :=
    write_of_printed hp hx hf.bytes hsrc hfid hn hfp
  obtain ⟨s₀, ex, -, -, -, rfl⟩ := Indexer.write_eq_ok hw
  obtain ⟨s', hwrote, hs'⟩ :=
    wrote_of_refreshed (hf.write hw) hchecked (by rwa [normalizePath_idem])
    (by rwa [normalizePath_idem]) hn hnode hstream hids
  exact ⟨_, s', hw, hwrote, hs'⟩

end
end MemoryGraph
