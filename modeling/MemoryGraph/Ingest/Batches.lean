import MemoryGraph.Ingest.Progress

/-! The batches of an index run do not depend on the order or the timing in which the parse results
arrive. -/

namespace MemoryGraph.Ingest
open Lib

def Action.undisturbed : Action → Bool
  | .setCap _ => true
  | a => a.works

namespace State
variable {F : Type} {o : Run F} {s : State F}

theorem undisturbed_running (hread : ∀ seq why, o.reading seq ≠ .error why) {cap : Nat}
    (h : Reach (step o) (fun _ a => a.undisturbed = true) (new cap) s) :
    Inv o s ∧ s.stop = none ∧ ∀ why, s.writer.point ≠ .failed why := by
  refine h.inv (P := fun s => Inv o s ∧ s.stop = none ∧ ∀ why, s.writer.point ≠ .failed why)
    ⟨inv_new cap, rfl, nofun⟩ ?_
  rintro s t a ⟨hi, hstop, hok⟩ ha hs
  refine ⟨step_inv hi a t hs, ?_⟩
  by_cases hw : a.works = true
  · exact works_running hi hstop hread hok hw t hs
  cases a with
  | setCap cap =>
    cases hs
    exact ⟨hstop, hok⟩
  | _ => exact absurd ha hw

/-- A run that is not stopped can be brought to its end, and has then handled every item once and
in walk order; its batches are the greedy partition if it is deterministic. -/
theorem batches_of_walk (o : Run F) (hread : ∀ seq why, o.reading seq ≠ .error why) (cap : Nat)
    {s : State F} (h : Reach (step o) (fun _ a => a.undisturbed = true) (new cap) s) :
    (∀ why, s.writer.point ≠ .failed why) ∧
    (∃ t, Reach (step o) (fun _ a => a.works = true) s t ∧ t.writer.point = .returned) ∧
    (s.writer.point = .returned →
      s.writer.handled.map (fun h => (h.1, Except.ok h.2)) =
        (List.range o.items.length).map (fun seq => (seq, o.outcome seq)) ∧
      s.writer.flushed.flatten = o.files ∧
      (o.deterministic = true → s.writer.flushed = o.greedyBatches)) := by
  obtain ⟨hi, hstop, hok⟩ := undisturbed_running hread h
  refine ⟨hok, exists_returned hi hstop hread hok, fun hp => ?_⟩
  obtain ⟨hnil, -, hnext⟩ := hi.returned hp
  have hhandled := hi.books.handled
  have hconcat := hi.books.concat
  rw [hnext] at hhandled hconcat
  rw [hnil, List.append_nil] at hconcat
  refine ⟨hhandled, hconcat, fun hdet => ?_⟩
  have hgreedy := hi.greedy hdet hstop
  rw [Writer.Greedy, hnil, hnext, o.filesFrom_length] at hgreedy
  have hend : Batching.resume o.limit o.tooBig ([] : List (String × F)) [] = [] := rfl
  rwa [hend, List.append_nil] at hgreedy

def threeFiles : Run Nat :=
  { items := [.file "a" 20000000, .file "b" 20000000, .file "c" 1]
    reading := fun seq => .prepared (if seq = 2 then 1 else 20000000)
    scratch := fun _ => 0, bytesLen := id, deterministic := true, jobs := 2, cpus :=
    1, chunkBytes := 100000000 }

theorem batches_of_walk_reordered : ∃ s : State Nat,
    Reach (step threeFiles) (fun _ a => a.undisturbed = true) (new 100000000) s ∧
      s.writer.flushed = threeFiles.greedyBatches ∧
      s.writer.flushed = [[("a", 20000000)], [("b", 20000000), ("c", 1)]] := by
  obtain ⟨s, hs, hpoint, hflushed⟩ : ∃ s : State Nat, run (step threeFiles) (new 100000000)
      [.walk, .walk, .walk, .walkEnd, .acquire, .acquire, .acquire, .start, .start, .leave 1,
        .send 1, .receive, .start, .leave 2, .send 2, .receive, .leave 0, .send 0, .receive,
        .begin 0 none, .take, .take, .conclude none, .settle, .begin 0 none, .take, .take, .take,
        .conclude none, .settle] = some s ∧
      s.writer.point = .returned ∧
        s.writer.flushed = [[("a", 20000000)], [("b", 20000000), ("c", 1)]] :=
    ⟨_, rfl, rfl, rfl⟩
  have hreach : Reach (step threeFiles) (fun _ a => a.undisturbed = true) (new 100000000) s :=
    reach_run .start (of_decide_eq_true rfl) hs
  exact ⟨s, hreach, ((batches_of_walk threeFiles nofun 100000000 hreach).2.2 hpoint).2.2 rfl,
    hflushed⟩

end State
end MemoryGraph.Ingest
