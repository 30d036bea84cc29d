import MemoryGraph.Lib.Counting
import MemoryGraph.Store.Overwrite

/-! The derived tables rebuilt, as on opening a store that a writer without them has changed. -/

namespace MemoryGraph
open Lib Codec List

def Data.rebuildRefs (d : Data) : Data :=
  { d with
    refs := (d.streams.keys.map contentId).foldl Table.bump Table.empty
    contentFiles := Multimap.empty.insertAll (d.streams.keys.map fun f => (contentId f, f)) }

def Data.rebuildSymFold (d : Data) : Data :=
  { d with symFold := Multimap.empty.insertAll (d.symIdx.pairs.map fun p =>
    (foldSymbolName p.1, p.2)) }

def Data.rebuildFileKeys (d : Data) : Except StoreError Data := do
  let rows ← (d.nodes.rows.filter fun r => r.2.kind = .file).mapM fun r =>
      do return (r.1, ← fileKeyRow r.2)
  return { d with fileKeys := Table.empty.insertAll rows }

/-- Whatever the derived tables hold, rebuilding gives the ones that every write has kept. -/
theorem rebuilt_eq_kept {sha256 : List UInt8 → List UInt8} {d : Data}
    (h : Reachable sha256 Extraction.Indexable d) (refs : Table Nat Nat)
    (contentFiles : Multimap Nat Nat) (symFold : Multimap String Nat)
    (fileKeys : Table Nat (List UInt8)) :
    (Data.rebuildRefs
      { d with refs, contentFiles, symFold, fileKeys }).rebuildSymFold.rebuildFileKeys = .ok d := by
  obtain ⟨σ, es, hw⟩ := reachable_whole h
  have hcontent := hw.inv.content
  have hsyms := hw.symbols fun _ h => h
  have hkeys : ∀ f, f ∈ d.streams.keys ↔ (σ f).isSome := by
    intro f
    rw [Table.mem_keys, hcontent.streams]
    cases σ f <;> simp
  have hrefs : (d.streams.keys.map contentId).foldl Table.bump Table.empty = d.refs := by
    refine Table.ext fun c => ?_
    have hnd : d.streams.keys.Nodup := d.streams.keys_sorted.imp fun h => h.ne
    rw [Table.counts_empty.bumpAll _ c, hcontent.refs, show contentId = id from rfl, map_id]
    simp only [hnd.count, hkeys]
    cases σ c <;> rfl
  have hfiles : Multimap.empty.insertAll (d.streams.keys.map fun f => (contentId f, f)) =
      d.contentFiles := by
    refine Multimap.ext fun p => ?_
    rw [Multimap.mem_pairs_insertAll, hcontent.contentFiles]
    simp only [mem_map, hkeys, contentId, Multimap.pairs_empty, not_mem_nil, or_false]
    grind
  have hfold : Multimap.empty.insertAll (d.symIdx.pairs.map fun p => (foldSymbolName p.1, p.2)) =
      d.symFold := by
    refine Multimap.ext fun p => ?_
    rw [Multimap.mem_pairs_insertAll, hsyms.folded]
    simp only [mem_map, hsyms.names, foldPairs, Multimap.pairs_empty, not_mem_nil, or_false]
    grind
  have hkey : ∀ r ∈ d.nodes.rows.filter fun r => r.2.kind = .file,
      ∃ row, fileKeyRow r.2 = .ok row ∧ d.fileKeys.get r.1 = some row := by
    intro r hr
    obtain ⟨hr, hk⟩ := mem_filter.mp hr
    obtain ⟨row, hrow⟩ :=
      exists_fileKeyRow hw.inv.entities (Table.mem_rows_iff.mp hr) (of_decide_eq_true hk)
    exact ⟨row, hrow, (hw.inv.files.keys _ _).mpr ⟨_, Table.mem_rows_iff.mp hr,
      of_decide_eq_true hk, hrow⟩⟩
  have hfileKeys : Table.empty.insertAll ((d.nodes.rows.filter fun r => r.2.kind = .file).map
      fun r => (r.1, (d.fileKeys.get r.1).getD [])) = d.fileKeys := by
    refine Table.insertAll_empty_eq ?_ fun f row => ⟨fun h => ?_, fun h => ?_⟩
    · rw [map_map]
      exact (pairwise_map.mpr (d.nodes.sorted.sublist filter_sublist)).imp fun h => h.ne
    · obtain ⟨r, hr, he⟩ := mem_map.mp h
      obtain ⟨_, -, hget⟩ := hkey r hr
      cases he
      rw [hget]
      rfl
    · obtain ⟨n, hn, hk, -⟩ := (hw.inv.files.keys f row).mp h
      exact mem_map.mpr ⟨(f, n),
        mem_filter.mpr ⟨Table.get_eq_some.mp hn, decide_eq_true hk⟩, by rw [h]; rfl⟩
  rw [Data.rebuildRefs, Data.rebuildSymFold, Data.rebuildFileKeys]
  dsimp only
  rw [mapM_ok (g := fun r => (r.1, (d.fileKeys.get r.1).getD [])), ok_bind, hrefs, hfiles,
    hfold, hfileKeys]
  · rfl
  · intro r hr
    obtain ⟨row, hrow, hget⟩ := hkey r hr
    rw [hrow, hget]
    rfl

theorem rebuilt_eq_kept_sample :
    (Data.rebuildRefs { sampleStore with refs := Table.empty }).rebuildSymFold.rebuildFileKeys =
    .ok sampleStore :=
  rebuilt_eq_kept (sampleStore_reachable (by decide)) _ _ _ _

end MemoryGraph
