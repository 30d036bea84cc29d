import MemoryGraph.Backup.Sink
import MemoryGraph.Lib.Sorting

/-! Retention: which objects of a cluster's directory are deleted, and what is left of its backups
at any point of the deletions. -/

namespace MemoryGraph.Backup
open Lib List

abbrev Committed := Nat × Nat × Key

def committed (p : Key) (objects : List ObjectInfo) : List Committed :=
  ((objects.filter fun o => child p o.key).filter fun o =>
    metaExt.isSuffixOf o.key).filterMap fun o =>
    (parseStem o.key).map fun (t, i) => (i, t, o.key)

def newer (a b : Committed) : Bool :=
  decide (toLex (b.1, toLex (b.2.1, b.2.2)) ≤ toLex (a.1, toLex (a.2.1, a.2.2)))

section
variable (std : Sorting)

def planBackups (keep : Nat) (metas : List Committed) : List Key × List Key :=
  metas.zipIdx.foldl (fun (kept, out) (m, n) =>
    if keep = 0 ∨ n < keep then (kept ++ [dataKey m.2.2], out)
    else (kept, out ++ [m.2.2, dataKey m.2.2])) ([], [])

def old (orphanAge : Nat) (now : Int) (o : ObjectInfo) : Bool :=
  decide (o.modified ≤ now ∧ orphanAge ≤ now - o.modified)

def planOrphans (orphanAge : Nat) (now : Int) (kept : List Key) (mine : List ObjectInfo)
    (out : List Key) : List Key :=
  mine.foldl (fun out o =>
    if metaExt.isSuffixOf o.key ∨ o.key ∈ kept ∨ o.key ∈ out then out
    else if old orphanAge now o then out ++ [o.key] else out) out

def planRetention (p : Key) (objects : List ObjectInfo) (keep orphanAge : Nat) (now : Int) :
    List Key :=
  let (kept, out) := planBackups keep (std.sort newer (committed p objects))
  planOrphans orphanAge now kept (objects.filter fun o => child p o.key) out

end

theorem planBackups_eq (keep : Nat) (metas : List Committed) :
    planBackups keep metas =
      ((metas.take (if keep = 0 then metas.length else keep)).map fun m => dataKey m.2.2,
        (metas.drop (if keep = 0 then metas.length else keep)).flatMap fun m =>
        [m.2.2, dataKey m.2.2]) := by
  have key : ∀ (l : List Committed) (i : Nat) (kept out : List Key),
      (l.zipIdx i).foldl (fun (kept, out) (m, n) =>
        if keep = 0 ∨ n < keep then (kept ++ [dataKey m.2.2], out)
        else (kept, out ++ [m.2.2, dataKey m.2.2])) (kept, out) =
      (kept ++ (l.take (if keep = 0 then l.length else keep - i)).map fun m => dataKey m.2.2,
        out ++ (l.drop (if keep = 0 then l.length else keep - i)).flatMap fun m =>
        [m.2.2, dataKey m.2.2]) := by
    intro l
    induction l with
    | nil => simp
    | cons m l ih =>
      intro i kept out
      rw [zipIdx_cons, foldl_cons]
      dsimp only
      by_cases h0 : keep = 0
      · rw [if_pos (.inl h0), ih, if_pos h0, if_pos h0]
        simp
      · by_cases hlt : i < keep
        · obtain ⟨d, hd⟩ := Nat.exists_eq_add_of_lt hlt
          have h1 : keep - i = d + 1 := by omega
          have h2 : keep - (i + 1) = d := by omega
          rw [if_pos (.inr hlt), ih, if_neg h0, if_neg h0, h1, h2]
          simp
        · have h1 : keep - i = 0 := by omega
          have h2 : keep - (i + 1) = 0 := by omega
          rw [if_neg (not_or.mpr ⟨h0, hlt⟩), ih, if_neg h0, if_neg h0, h1, h2]
          simp
  have h := key metas 0 [] []
  rwa [nil_append, nil_append, Nat.sub_zero] at h

theorem planOrphans_eq {orphanAge : Nat} {now : Int} {kept : List Key} (mine : List ObjectInfo)
    (out : List Key) :
    ∃ orphans, planOrphans orphanAge now kept mine out = out ++ orphans ∧
      ∀ k ∈ orphans, k ∉ kept ∧ k ∉ out ∧ ¬metaExt <:+ k ∧ ∃ o ∈ mine, o.key = k ∧
        old orphanAge now o = true := by
  induction mine generalizing out with
  | nil => exact ⟨[], (append_nil out).symm, nofun⟩
  | cons o mine ih =>
    have hlater : ∀ {k}, (∃ x ∈ mine, x.key = k ∧ old orphanAge now x = true) →
        ∃ x ∈ o :: mine, x.key = k ∧ old orphanAge now x = true :=
      fun ⟨x, hx, h⟩ => ⟨x, mem_cons_of_mem o hx, h⟩
    rw [planOrphans, foldl_cons]
    split_ifs with hskip hold
    · obtain ⟨orphans, heq, h⟩ := ih out
      exact ⟨orphans, heq, fun k hk =>
        ⟨(h k hk).1, (h k hk).2.1, (h k hk).2.2.1, hlater (h k hk).2.2.2⟩⟩
    · obtain ⟨orphans, heq, h⟩ := ih (out ++ [o.key])
      rw [not_or, not_or, isSuffixOf_iff_suffix] at hskip
      refine ⟨o.key :: orphans, heq.trans (by simp), fun k hk => ?_⟩
      rcases mem_cons.mp hk with rfl | hk
      · exact ⟨hskip.2.1, hskip.2.2, hskip.1, o, mem_cons_self, rfl, hold⟩
      · obtain ⟨hkept, hout, hmeta, hx⟩ := h k hk
        exact ⟨hkept, fun hmem => hout (mem_append_left _ hmem), hmeta, hlater hx⟩
    · obtain ⟨orphans, heq, h⟩ := ih out
      exact ⟨orphans, heq, fun k hk =>
        ⟨(h k hk).1, (h k hk).2.1, (h k hk).2.2.1, hlater (h k hk).2.2.2⟩⟩

theorem mem_take_pairs {α β : Type} {f g : α → β} {l : List α} {rest : List β} {m : α} {n : Nat}
    (hne : ∀ x ∈ l, f x ≠ g m) (hinj : ∀ x ∈ l, g x = g m → f x = f m) (hrest : g m ∉ rest)
    (h : g m ∈ ((l.flatMap fun x => [f x, g x]) ++ rest).take n) :
    f m ∈ ((l.flatMap fun x => [f x, g x]) ++ rest).take n := by
  induction l generalizing n with
  | nil => exact absurd (mem_of_mem_take h) hrest
  | cons x l ih =>
    simp only [flatMap_cons, cons_append, nil_append] at h ⊢
    obtain _ | _ | n := n
    · exact absurd h (by simp)
    · exact absurd (mem_singleton.mp h).symm (hne x mem_cons_self)
    · rw [take_succ_cons, take_succ_cons, mem_cons, mem_cons] at h ⊢
      rcases h with h | h | h
      · exact absurd h.symm (hne x mem_cons_self)
      · exact .inl (hinj x mem_cons_self h.symm).symm
      · exact .inr (.inr (ih (fun y hy => hne y (mem_cons_of_mem x hy))
          (fun y hy => hinj y (mem_cons_of_mem x hy)) h))

theorem totalOrder_newer : TotalOrder newer where
  trans := fun _ _ _ hab hbc =>
    decide_eq_true (le_trans (of_decide_eq_true hbc) (of_decide_eq_true hab))
  total := fun _ _ => (le_total _ _).imp decide_eq_true decide_eq_true

theorem le_of_newer {a b : Committed} (h : newer a b = true) :
    toLex (b.1, b.2.1) ≤ toLex (a.1, a.2.1) := by
  have h := of_decide_eq_true h
  rw [Prod.Lex.toLex_le_toLex] at h ⊢
  rcases h with h | ⟨h, h'⟩
  · exact .inl h
  · refine .inr ⟨h, ?_⟩
    rcases Prod.Lex.toLex_le_toLex.mp h' with h' | ⟨h', -⟩
    · exact h'.le
    · exact h'.le

theorem mem_committed {p : Key} {objects : List ObjectInfo} {m : Committed}
    (h : m ∈ committed p objects) : child p m.2.2 = true ∧ metaExt <:+ m.2.2 := by
  obtain ⟨o, ho, hm⟩ := mem_filterMap.mp h
  obtain ⟨ho, hmeta⟩ := mem_filter.mp ho
  obtain ⟨⟨t, i⟩, -, rfl⟩ := Option.map_eq_some_iff.mp hm
  exact ⟨(mem_filter.mp ho).2, isSuffixOf_iff_suffix.mp hmeta⟩

theorem map_key_committed (p : Key) (objects : List ObjectInfo) :
    ((committed p objects).map (·.2.2)).Sublist (objects.map (·.key)) := by
  have key : ∀ l : List ObjectInfo,
      ((l.filterMap fun o => (parseStem o.key).map fun (t, i) => (i, t, o.key)).map
      fun m : Committed => m.2.2).Sublist (l.map (·.key)) := by
    intro l
    induction l with
    | nil => exact .slnil
    | cons o l ih =>
      cases h : parseStem o.key with
      | none =>
        rw [filterMap_cons_none (by rw [h]; rfl)]
        exact ih.cons _
      | some ti =>
        rw [filterMap_cons_some (by rw [h]; rfl)]
        exact ih.cons_cons _
  exact (key _).trans ((filter_sublist.trans filter_sublist).map _)

theorem committed_perm {sink : Sink} {p : Key} {objects : List ObjectInfo}
    (h : objects.Perm (sink.list p)) : (committed p objects).Perm (committed p sink.objects) := by
  have hmine : (sink.list p).filter (fun o => child p o.key) = sink.objects.filter fun o =>
      child p o.key := by
    rw [Sink.list, filter_filter]
    refine filter_congr fun o _ => Bool.eq_iff_iff.mpr ?_
    rw [Bool.and_eq_true, isPrefixOf_iff_prefix, and_iff_left_iff_imp]
    intro hchild
    obtain ⟨rest, hrest, -⟩ := child_iff.mp hchild
    exact ⟨rest, hrest.symm⟩
  have hperm := h.filter fun o => child p o.key
  rw [hmine] at hperm
  exact (hperm.filter _).filterMap _

/-- What a part of the deletions leaves of a sink whose backups are `kept` and `beyond`. -/
structure Retained (p : Key) (sink after : Sink) (kept beyond : List Committed) (orphanAge : Nat)
    (now : Int) : Prop where
  whole : ∀ m ∈ kept, ∀ o ∈ sink.objects, o.key = m.2.2 ∨ o.key = dataKey m.2.2 → o ∈ after.objects
  -- no `.meta` is left without the data it had
  paired : ∀ m ∈ kept ++ beyond, m.2.2 ∈ after.objects.map (·.key) →
    ∀ o ∈ sink.objects, o.key = dataKey m.2.2 → o ∈ after.objects
  inside : ∀ o ∈ sink.objects, o ∉ after.objects → child p o.key = true
  young : ∀ o ∈ sink.objects, o ∉ after.objects → now - o.modified < orphanAge →
    ∃ m ∈ beyond, o.key = m.2.2 ∨ o.key = dataKey m.2.2

section
variable {id : Key} {sink : Sink} {kept beyond : List Committed} {orphans : List Key}
  {orphanAge : Nat} {now : Int} (hmem : ∀ m ∈ kept ++ beyond, child (id ++ ['/']) m.2.2 = true ∧
  metaExt <:+ m.2.2) (hnodup : ((kept ++ beyond).map (·.2.2)).Nodup)
  (horphans : ∀ k ∈ orphans, k ∉ kept.map (fun m => dataKey m.2.2) ∧
    k ∉ (beyond.flatMap fun m => [m.2.2, dataKey m.2.2]) ∧ ¬metaExt <:+ k ∧
      ∃ o ∈ sink.objects, child (id ++ ['/']) o.key = true ∧ o.key = k ∧ old orphanAge now o = true)
include hmem hnodup horphans

theorem kept_not_mem {m : Committed} (hm : m ∈ kept) {k : Key}
    (hk : k = m.2.2 ∨ k = dataKey m.2.2) :
    k ∉ (beyond.flatMap fun m => [m.2.2, dataKey m.2.2]) ++ orphans := by
  have hmeta := (hmem m (mem_append_left _ hm)).2
  have hother : ∀ x ∈ beyond, x.2.2 ≠ m.2.2 := fun x hx heq => by
    rw [map_append] at hnodup
    exact disjoint_of_nodup_append hnodup (mem_map_of_mem hm) (heq ▸ mem_map_of_mem hx)
  rw [mem_append, mem_flatMap, not_or]
  constructor
  · rintro ⟨x, hx, hkx⟩
    have hxmeta := (hmem x (mem_append_right _ hx)).2
    rcases mem_pair.mp hkx with hkx | hkx <;> rcases hk with rfl | rfl
    · exact hother x hx hkx.symm
    · exact not_metaExt_dataKey m.2.2 (hkx ▸ hxmeta)
    · exact not_metaExt_dataKey x.2.2 (hkx ▸ hmeta)
    · exact hother x hx (dataKey_inj hmeta hxmeta hkx).symm
  · intro horphan
    obtain ⟨hkept, -, hnot, -⟩ := horphans k horphan
    rcases hk with rfl | rfl
    · exact hnot hmeta
    · exact hkept (mem_map_of_mem hm)

omit hnodup in
theorem mem_plan {k : Key} (h : k ∈ (beyond.flatMap fun m => [m.2.2, dataKey m.2.2]) ++ orphans) :
    child (id ++ ['/']) k = true ∧ ((∃ m ∈ beyond, k = m.2.2 ∨ k = dataKey m.2.2) ∨
      ∃ o ∈ sink.objects, o.key = k ∧ old orphanAge now o = true) := by
  rcases mem_append.mp h with h | h
  · obtain ⟨m, hm, hk⟩ := mem_flatMap.mp h
    obtain ⟨hchild, hmeta⟩ := hmem m (mem_append_right _ hm)
    rcases mem_pair.mp hk with rfl | rfl
    · exact ⟨hchild, .inl ⟨m, hm, .inl rfl⟩⟩
    · exact ⟨child_dataKey hmeta hchild, .inl ⟨m, hm, .inr rfl⟩⟩
  · obtain ⟨-, -, -, o, ho, hchild, rfl, hold⟩ := horphans k h
    exact ⟨hchild, .inr ⟨o, ho, rfl, hold⟩⟩

omit hnodup in
theorem mem_plan_of_deleted {n : Nat} {o : ObjectInfo} (ho : o ∈ sink.objects)
    (hdeleted : o ∉ ((((beyond.flatMap fun m => [m.2.2, dataKey m.2.2]) ++ orphans).take n).foldl
      Sink.delete sink).objects) :
    child (id ++ ['/']) o.key = true ∧ ((∃ m ∈ beyond, o.key = m.2.2 ∨ o.key = dataKey m.2.2) ∨
      ∃ o' ∈ sink.objects, o'.key = o.key ∧ old orphanAge now o' = true) := by
  refine mem_plan hmem horphans ?_
  by_contra hnot
  exact hdeleted (Sink.mem_foldl_delete.mpr ⟨ho, fun htake => hnot (mem_of_mem_take htake)⟩)

theorem retained_take (n : Nat) : Retained (id ++ ['/']) sink
    ((((beyond.flatMap fun m => [m.2.2, dataKey m.2.2]) ++ orphans).take n).foldl Sink.delete sink)
      kept beyond orphanAge now where
  whole := fun m hm o ho hk => Sink.mem_foldl_delete.mpr ⟨ho, fun htake =>
    kept_not_mem hmem hnodup horphans hm hk (mem_of_mem_take htake)⟩
  paired := by
    intro m hm hleft o ho hk
    refine Sink.mem_foldl_delete.mpr ⟨ho, fun htake => ?_⟩
    rcases mem_append.mp hm with hkept | hbeyond
    · exact kept_not_mem hmem hnodup horphans hkept (.inr hk) (mem_of_mem_take htake)
    · have hmeta := (hmem m hm).2
      obtain ⟨left, hleft, hkey⟩ := mem_map.mp hleft
      refine (Sink.mem_foldl_delete.mp hleft).2 (hkey ▸ ?_)
      rw [hk] at htake
      refine mem_take_pairs (f := fun m : Committed => m.2.2) (fun x hx heq => ?_) (fun x hx heq =>
        ?_) (fun hrest => ?_) htake
      · exact not_metaExt_dataKey m.2.2 (heq ▸ (hmem x (mem_append_right _ hx)).2)
      · exact dataKey_inj (hmem x (mem_append_right _ hx)).2 hmeta heq
      · exact (horphans _ hrest).2.1 (mem_flatMap.mpr ⟨m, hbeyond, by simp⟩)
  inside := fun o ho hdeleted => (mem_plan_of_deleted hmem horphans ho hdeleted).1
  young := by
    intro o ho hdeleted hyoung
    obtain ⟨-, hbeyond | ⟨o', ho', hkey, hold⟩⟩ := mem_plan_of_deleted hmem horphans ho hdeleted
    · exact hbeyond
    · obtain rfl := inj_on_of_nodup_map sink.nodup ho' ho hkey
      have := of_decide_eq_true hold
      omega

end

/-- Whatever part of the deletions is made, the newest backups are left whole, no `.meta` is left
without its data, and young objects go only with their backup. -/
theorem retention_safe (std : Sorting) (sink : Sink) (id : Key) {objects : List ObjectInfo}
    (hlist : objects.Perm (sink.list (id ++ ['/']))) (keep orphanAge : Nat) (now : Int) :
    ∃ kept beyond : List Committed, (kept ++ beyond).Perm (committed (id ++ ['/']) sink.objects) ∧
      kept.length = (if keep = 0 then (committed (id ++ ['/']) sink.objects).length
        else min keep (committed (id ++ ['/']) sink.objects).length) ∧
      (∀ a ∈ kept, ∀ b ∈ beyond, toLex (b.1, b.2.1) ≤ toLex (a.1, a.2.1)) ∧
      ∀ n, (∀ k ∈ (planRetention std (id ++ ['/']) objects keep orphanAge now).take n,
        child (id ++ ['/']) k = true) ∧
        Retained (id ++ ['/']) sink
          (((planRetention std (id ++ ['/']) objects keep orphanAge now).take n).foldl Sink.delete
            sink) kept beyond orphanAge now := by
  have hsorted := std.sorted totalOrder_newer (committed (id ++ ['/']) objects)
  have hperm := (std.perm_sort newer (committed (id ++ ['/']) objects)).trans (committed_perm hlist)
  have hplan : planRetention std (id ++ ['/']) objects keep orphanAge now =
      planOrphans orphanAge now
      (planBackups keep (std.sort newer (committed (id ++ ['/']) objects))).1
      (objects.filter fun o => child (id ++ ['/']) o.key)
      (planBackups keep (std.sort newer (committed (id ++ ['/']) objects))).2 := rfl
  generalize std.sort newer (committed (id ++ ['/']) objects) = metas at *
  have hlen := hperm.length_eq
  rw [planBackups_eq] at hplan
  generalize hk : (if keep = 0 then metas.length else keep) = k at *
  have hsplit := List.take_append_drop k metas
  obtain ⟨orphans, horphans, hspec⟩ :=
    @planOrphans_eq orphanAge now ((metas.take k).map fun m => dataKey m.2.2)
    (objects.filter fun o => child (id ++ ['/']) o.key) ((metas.drop k).flatMap fun m =>
      [m.2.2, dataKey m.2.2])
  rw [hplan, horphans]
  have hmem : ∀ m ∈ metas.take k ++ metas.drop k, child (id ++ ['/']) m.2.2 = true ∧
      metaExt <:+ m.2.2 := fun m hm =>
    mem_committed (hperm.subset (hsplit ▸ hm))
  have hnodup : ((metas.take k ++ metas.drop k).map (·.2.2)).Nodup := by
    rw [hsplit]
    exact (hperm.map _).nodup_iff.mpr (sink.nodup.sublist (map_key_committed _ _))
  have hfound : ∀ x ∈ orphans, x ∉ (metas.take k).map (fun m => dataKey m.2.2) ∧
      x ∉ ((metas.drop k).flatMap fun m => [m.2.2, dataKey m.2.2]) ∧ ¬metaExt <:+ x ∧
        ∃ o ∈ sink.objects, child (id ++ ['/']) o.key = true ∧ o.key = x ∧
        old orphanAge now o = true := by
    intro x hx
    obtain ⟨hkept, hout, hmeta, o, ho, hkey, hold⟩ := hspec x hx
    obtain ⟨ho, hchild⟩ := List.mem_filter.mp ho
    exact ⟨hkept, hout, hmeta, o, (Sink.mem_list.mp (hlist.subset ho)).1, hchild, hkey, hold⟩
  refine ⟨metas.take k,
    metas.drop k, by rwa [hsplit], ?_, fun a ha b hb => ?_, fun n => ⟨fun x hx => ?_, ?_⟩⟩
  · rw [List.length_take, ← hlen, ← hk]
    split_ifs
    · exact Nat.min_self _
    · rfl
  · rw [← hsplit] at hsorted
    exact le_of_newer ((List.pairwise_append.mp hsorted).2.2 a ha b hb)
  · exact (mem_plan hmem hfound (List.mem_of_mem_take hx)).1
  · exact retained_take hmem hnodup hfound n

def twoBackups : Sink where
  objects := [⟨"c/snap-1-9.meta".toList, 90⟩, ⟨"c/snap-1-9.redb".toList, 90⟩,
    ⟨"c/snap-1-5.meta".toList, 50⟩, ⟨"c/snap-1-5.redb".toList, 50⟩, ⟨"c/snap-1-7.redb".toList, 70⟩,
    ⟨"d/snap-1-2.redb".toList, 20⟩]
  nodup := by decide +kernel

theorem twoBackups_retained :
    ∃ kept beyond : List Committed, (kept ++ beyond).Perm
      (committed ("c".toList ++ ['/']) twoBackups.objects) ∧
      kept.length = (if 1 = 0 then (committed ("c".toList ++ ['/']) twoBackups.objects).length
        else min 1 (committed ("c".toList ++ ['/']) twoBackups.objects).length) ∧
      (∀ a ∈ kept, ∀ b ∈ beyond, toLex (b.1, b.2.1) ≤ toLex (a.1, a.2.1)) ∧
      ∀ n, (∀ k ∈ (planRetention Sorting.merge ("c".toList ++ ['/'])
            (twoBackups.list ("c".toList ++ ['/'])) 1 25 100).take n,
          child ("c".toList ++ ['/']) k = true) ∧
        Retained ("c".toList ++ ['/']) twoBackups
          (((planRetention Sorting.merge ("c".toList ++ ['/'])
            (twoBackups.list ("c".toList ++ ['/'])) 1 25 100).take n).foldl Sink.delete twoBackups)
          kept beyond 25 100 :=
  retention_safe Sorting.merge twoBackups "c".toList (List.Perm.refl _) 1 25 100

end MemoryGraph.Backup
