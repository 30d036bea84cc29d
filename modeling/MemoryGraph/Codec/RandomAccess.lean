import MemoryGraph.Codec.Access
import MemoryGraph.Lib.Search

/-! Random access into any byte string that the full decode accepts, written by the encoder
or not: the full pass has verified what the checkpoints promise. -/

namespace MemoryGraph.Codec
open Lib
variable {lz : Lazy}

theorem keeps_byte : Keeps byte := by
  intro c v c' h
  unfold byte StateT.run at h
  dsimp only at h
  split at h
  · cases h
    rfl
  · cases h

theorem keeps_varintGo (fuel v shift : Nat) : Keeps (varintGo fuel v shift) := by
  induction fuel generalizing v shift with
  | zero => exact .throw _
  | succ fuel ih =>
    exact .bind keeps_byte fun b => .ite (.bind (.throw _) fun _ => .ite (.pure _) (ih _ _))
      (.ite (.pure _) (ih _ _))

theorem keeps_varint : Keeps varint := by
  intro c v c' h
  unfold varint StateT.run at h
  dsimp only at h
  split at h
  · split_ifs at h
    · cases h
      rfl
    · exact keeps_varintGo 11 0 0 c v c' h
  · exact keeps_varintGo 11 0 0 c v c' h

theorem keeps_rel (base : U32) : Keeps (rel base) := by
  unfold rel
  refine .bind keeps_varint fun n => ?_
  dsimp only
  repeat refine .ite (.throw _) ?_
  split
  · exact .pure _
  · exact .throw _

theorem keeps_readSpan (prev : Span) : Keeps (readSpan prev) := by
  refine .bind (keeps_rel _) fun _ => .bind (keeps_rel _) fun _ => .bind (keeps_rel _) fun _ =>
    .bind (keeps_rel _) fun _ => .bind (keeps_rel _) fun _ => .bind keeps_varint fun _ => ?_
  split
  · exact .pure _
  · exact .throw _

theorem keeps_parent : Keeps parent := by
  refine .bind keeps_varint fun p => .ite (.pure _) ?_
  split
  · exact .pure _
  · exact .throw _

theorem keeps_readClass : Keeps readClass := by
  refine .bind keeps_byte fun b => ?_
  split
  · exact .pure _
  · exact .throw _

theorem keeps_record (lz : Lazy) (prev : Span) : Keeps (lz.record prev) := by
  refine .bind keeps_varint fun _ => .bind keeps_readClass fun _ => .bind keeps_parent fun _ => ?_
  refine .ite (.bind (.throw _) fun _ => ?_) ?_
  · exact .bind (keeps_readSpan _) fun _ => .pure _
  · exact .bind (keeps_readSpan _) fun _ => .pure _

/-- Records read in a row from position `off 0`, the first at ordinal `ord`, after span `prev`. -/
structure Lazy.Trace (lz : Lazy) (ord : Nat) (prev : Span) (ts : List TokRec) (off : Nat → Nat) :
    Prop where
  record : ∀ i t, ts[i]? = some t →
    (lz.record (lastSpan prev (ts.take i))).run ⟨lz.toks, off i⟩ = .ok (t, ⟨lz.toks, off (i + 1)⟩)
  ck : ∀ i < ts.length, 0 < ord + i → (ord + i) % checkpointEvery = 0 →
    lz.cks[(ord + i) / checkpointEvery - 1]? = some ⟨off i, (lastSpan prev (ts.take i)).start,
      (lastSpan prev (ts.take i)).startLine, (lastSpan prev (ts.take i)).startCol⟩

theorem checkCk_ok {ord : Nat} {prev : Span} {c c' : Cursor} {u : Unit}
    (h : (lz.checkCk ord prev).run c = .ok (u, c')) :
      c' = c ∧ (0 < ord → ord % checkpointEvery = 0 → lz.cks[ord / checkpointEvery - 1]? =
        some ⟨c.pos, prev.start, prev.startLine, prev.startCol⟩) := by
  unfold Lazy.checkCk at h
  split_ifs at h with hc
  · cases hck : lz.cks[ord / checkpointEvery - 1]? with
    | none =>
      rw [hck] at h
      cases h
    | some ck =>
      rw [hck] at h
      dsimp only at h
      rw [StateT.run_bind] at h
      obtain ⟨⟨r, c₁⟩, hget, h⟩ := bind_eq_ok.mp h
      cases hget
      dsimp only at h
      split_ifs at h with hne
      · cases h
      · cases h
        have heq := not_not.mp hne
        rw [Prod.mk.injEq, Prod.mk.injEq, Prod.mk.injEq] at heq
        obtain ⟨h1, h2, h3, h4⟩ := heq
        refine ⟨rfl, fun _ _ => ?_⟩
        rw [← h1, ← h2, ← h3, ← h4]
  · cases h
    exact ⟨rfl, fun h0 hmod => absurd ⟨h0, hmod⟩ hc⟩

abbrev collect : Visitor (List TokRec) := fun _ t ts => (ts ++ [t], true)

theorem trace_of_tokensGo (n : Nat) : ∀ (ord pos : Nat) (prev : Span) (acc : List TokRec)
    (r : List TokRec × Bool) (c : Cursor), (lz.tokensGo collect n ord prev acc).run ⟨lz.toks, pos⟩ =
    .ok (r, c) → ∃ ts off, r = (acc ++ ts, true) ∧ ts.length = n ∧ off 0 = pos ∧
      c = ⟨lz.toks, off n⟩ ∧ lz.Trace ord prev ts off := by
  induction n with
  | zero =>
    intro ord pos prev acc r c h
    cases h
    exact ⟨[], fun _ => pos, by rw [List.append_nil], rfl, rfl, rfl, fun i t ht => by simp at ht,
      fun i hi => absurd hi (Nat.not_lt_zero _)⟩
  | succ n ih =>
    intro ord pos prev acc r c h
    rw [Lazy.tokensGo, StateT.run_bind] at h
    obtain ⟨⟨u, c₁⟩, hck, h⟩ := bind_eq_ok.mp h
    obtain ⟨rfl, hverified⟩ := checkCk_ok hck
    rw [StateT.run_bind] at h
    obtain ⟨⟨t, c₂⟩, hrec, h⟩ := bind_eq_ok.mp h
    obtain ⟨b₂, pos₂⟩ := c₂
    obtain rfl : b₂ = lz.toks := keeps_record lz prev _ _ _ hrec
    obtain ⟨ts, off, hr, hlen, h0, hc, htrace⟩ := ih (ord + 1) pos₂ t.span (acc ++ [t]) r c h
    -- the record read first, then those of the rest of the pass
    refine ⟨t :: ts, fun i => i.casesOn pos off,
      ?_, by rw [List.length_cons, hlen], rfl, hc, ?_, ?_⟩
    · rw [hr, List.append_assoc]
      rfl
    · intro i t' ht
      cases i with
      | zero =>
        cases ht
        rw [← h0] at hrec
        exact hrec
      | succ i => exact htrace.record i t' ht
    · intro i hi hpos hmod
      cases i with
      | zero => exact hverified hpos hmod
      | succ i =>
        have hshift : ord + (i + 1) = ord + 1 + i := by omega
        rw [hshift] at hpos hmod ⊢
        exact htrace.ck i (Nat.lt_of_succ_lt_succ hi) hpos hmod

theorem exists_holds {tokens : List TokRec} (h : lz.tokens collect [] = .ok tokens) :
    ∃ off, lz.Holds tokens off := by
  rw [Lazy.tokens] at h
  obtain ⟨⟨⟨ts, full⟩, c⟩, hrun, h⟩ := bind_eq_ok.mp h
  obtain ⟨u, hstop, h⟩ := bind_eq_ok.mp h
  cases h
  obtain ⟨ts', off, hr, hlen, h0, rfl, htrace⟩ := trace_of_tokensGo _ _ _ _ _ _ _ hrun
  cases hr
  have hend : off lz.ntok = lz.toks.length := by
    by_contra hne
    exact failIf_eq_ok.mp hstop ⟨rfl, hne⟩
  refine ⟨off, hlen.symm, h0, hlen ▸ hend, htrace.record, fun i hi hpos hmod => ?_⟩
  have hck := htrace.ck i hi
  rw [Nat.zero_add] at hck
  exact hck hpos hmod

theorem length_readCks {n : Nat} : ∀ {last : Ck} {c c' : Cursor} {cks : List Ck},
    (readCks n last).run c = .ok (cks, c') → cks.length = n := by
  induction n with
  | zero =>
    intro last c c' cks h
    cases h
    rfl
  | succ n ih =>
    intro last c c' cks h
    rw [readCks, StateT.run_bind] at h
    obtain ⟨⟨d, c₁⟩, -, h⟩ := bind_eq_ok.mp h
    dsimp only at h
    split_ifs at h with hover
    · cases h
    · rw [StateT.run_bind] at h
      obtain ⟨⟨start, c₂⟩, -, h⟩ := bind_eq_ok.mp h
      rw [StateT.run_bind] at h
      obtain ⟨⟨line, c₃⟩, -, h⟩ := bind_eq_ok.mp h
      rw [StateT.run_bind] at h
      obtain ⟨⟨col, c₄⟩, -, h⟩ := bind_eq_ok.mp h
      rw [StateT.run_bind] at h
      obtain ⟨⟨rest, c₅⟩, hrest, h⟩ := bind_eq_ok.mp h
      cases h
      rw [List.length_cons, ih hrest]

theorem length_cks {b : List UInt8} (h : decodeLazy b = .ok lz) :
    lz.cks.length = (lz.ntok - 1) / checkpointEvery := by
  rw [decodeLazy] at h
  obtain ⟨⟨⟨nsym, ntok, symlen, flags⟩, c⟩, -, h⟩ := bind_eq_ok.mp h
  obtain ⟨-, -, h⟩ := bind_eq_ok.mp h
  obtain ⟨-, -, h⟩ := bind_eq_ok.mp h
  obtain ⟨-, -, h⟩ := bind_eq_ok.mp h
  obtain ⟨⟨cks, c'⟩, hcks, h⟩ := bind_eq_ok.mp h
  obtain ⟨-, -, h⟩ := bind_eq_ok.mp h
  cases h
  exact length_readCks hcks

def Ascending (tokens : List TokRec) : Prop := tokens.Pairwise
    (fun a b => a.span.start ≤ b.span.start)

section
variable {lz : Lazy} {tokens : List TokRec} {off : Nat → Nat} (h : lz.Holds tokens off)
  (hlen : lz.cks.length = (lz.ntok - 1) / checkpointEvery)
include h hlen

theorem Lazy.Holds.ck_start {k : Nat} {c : Ck} (hc : lz.cks[k]? = some c) :
    ∃ t, tokens[(k + 1) * checkpointEvery - 1]? = some t ∧ c.start = t.span.start ∧
      (k + 1) * checkpointEvery < tokens.length := by
  have hk := lt_of_getElem? hc
  rw [hlen, h.ntok, Nat.lt_div_iff_mul_lt (by decide)] at hk
  have hlt : (k + 1) * checkpointEvery < tokens.length := by
    rw [checkpointEvery] at hk ⊢
    omega
  have hpos : 0 < (k + 1) * checkpointEvery := Nat.mul_pos (Nat.succ_pos _) (by decide)
  obtain ⟨i, hi⟩ := Nat.exists_eq_succ_of_ne_zero hpos.ne'
  have ht := List.getElem?_eq_getElem (show i < tokens.length by omega)
  have hck := h.ck _ hlt hpos (Nat.mul_mod_left ..)
  rw [Nat.mul_div_cancel _ (by decide), Nat.add_sub_cancel, hc] at hck
  refine ⟨tokens[i], by rw [hi]; exact ht, ?_, hlt⟩
  rw [Option.some.inj hck, hi]
  dsimp only
  rw [prevSpan_succ ht]

variable (hasc : Ascending tokens) (p : U32)
include hasc

omit h hlen in
theorem Ascending.le {i j : Nat} {t u : TokRec} (ht : tokens[i]? = some t)
    (hu : tokens[j]? = some u) (hij : i ≤ j) : t.span.start ≤ u.span.start := by
  obtain ⟨hi, rfl⟩ := List.getElem?_eq_some_iff.mp ht
  obtain ⟨hj, rfl⟩ := List.getElem?_eq_some_iff.mp hu
  rcases hij.eq_or_lt with rfl | hlt
  · exact le_rfl
  · exact List.pairwise_iff_getElem.mp hasc i j hi hj hlt

theorem Lazy.Holds.lt_block {k : Nat} {c : Ck} (hc : lz.cks[k]? = some c) :
    k < (lz.cks.takeWhile (fun c => c.start < p)).length ↔ c.start < p := by
  rw [lt_length_takeWhile ?_ hc, decide_eq_true_iff]
  refine List.pairwise_iff_getElem.mpr fun i j hi hj hij => ?_
  obtain ⟨t, ht, hti, -⟩ := h.ck_start hlen (List.getElem?_eq_getElem hi)
  obtain ⟨u, hu, huj, -⟩ := h.ck_start hlen (List.getElem?_eq_getElem hj)
  have hle : (i + 1) * checkpointEvery - 1 ≤ (j + 1) * checkpointEvery - 1 :=
    Nat.sub_le_sub_right (Nat.mul_le_mul_right _ (by omega)) _
  rw [decide_eq_true_iff, decide_eq_true_iff, hti, huj]
  exact fun hlt => (hasc.le ht hu hle).trans_lt hlt

theorem Lazy.Holds.block_le {o : Nat} {t : TokRec} (ht : tokens[o]? = some t)
    (hp : p ≤ t.span.start) : lz.blockOrdinalAt p ≤ o := by
  by_contra hlt
  rw [Lazy.blockOrdinalAt] at hlt
  generalize hK : (lz.cks.takeWhile (fun c => c.start < p)).length = K at hlt
  cases K with
  | zero =>
    rw [Nat.zero_mul] at hlt
    exact hlt (Nat.zero_le _)
  | succ k =>
    -- the last checkpoint before the block starts below `p`, and the token comes before it
    have hk : k < lz.cks.length := by
      have hle := (List.takeWhile_prefix (l := lz.cks) (fun c => decide (c.start < p))).length_le
      omega
    have hc := List.getElem?_eq_getElem hk
    have hbelow := (h.lt_block hlen hasc p hc).mp (by rw [hK]; exact Nat.lt_succ_self k)
    obtain ⟨u, hu, hcu, -⟩ := h.ck_start hlen hc
    rw [hcu] at hbelow
    exact absurd (hp.trans (hasc.le ht hu (by omega))) (not_le.mpr hbelow)

theorem Lazy.Holds.block_near {o : Nat} (ho : o < tokens.length)
    (hfirst : ∀ j u, j < o → tokens[j]? = some u → u.span.start < p) :
    o < lz.blockOrdinalAt p + checkpointEvery := by
  by_contra hge
  rw [Lazy.blockOrdinalAt] at hge
  generalize hK : (lz.cks.takeWhile (fun c => c.start < p)).length = K at hge
  have hend : (K + 1) * checkpointEvery ≤ o := by
    rw [Nat.succ_mul]
    exact not_lt.mp hge
  have hk : K < lz.cks.length := by
    rw [hlen, h.ntok]
    rw [checkpointEvery] at hend ⊢
    omega
  have hc := List.getElem?_eq_getElem hk
  obtain ⟨u, hu, hcu, -⟩ := h.ck_start hlen hc
  have hbelow := hfirst _ u (by rw [checkpointEvery] at hend ⊢; omega) hu
  rw [← hcu, ← h.lt_block hlen hasc p hc, hK] at hbelow
  exact lt_irrefl K hbelow

end

/-- Random access agrees with the full decode on every byte string that it accepts. -/
theorem random_access_agrees {b : List UInt8} {s : Stream} (hb : decode b = .ok s) :
    ∃ lz, decodeLazy b = .ok lz ∧
      (∀ {σ : Type} (f : Visitor σ) (init : σ) (ords : List Nat), ords.Pairwise (· < ·) →
        lz.tokensAtWhile ords f init = visitAt f s.tokens ords init) ∧
      (∀ {σ : Type} (f : Visitor σ) (init : σ) (first : Nat), lz.tokensFromWhile first f init =
        .ok (visit f ((s.tokens.drop first).zipIdx first) init).1) ∧
      (Ascending s.tokens → ∀ p : U32,
        (∀ o t, s.tokens[o]? = some t → p ≤ t.span.start → lz.blockOrdinalAt p ≤ o) ∧
        ∀ o t, s.tokens[o]? = some t → p ≤ t.span.start →
          (∀ j u, j < o → s.tokens[j]? = some u → u.span.start < p) →
          ((s.tokens.take o).drop (lz.blockOrdinalAt p)).length < checkpointEvery) := by
  rw [decode] at hb
  obtain ⟨lz, hlz, hb⟩ := bind_eq_ok.mp hb
  obtain ⟨symbols, -, hb⟩ := bind_eq_ok.mp hb
  obtain ⟨tokens, htok, hb⟩ := bind_eq_ok.mp hb
  cases hb
  obtain ⟨off, h⟩ := exists_holds htok
  have hlen := length_cks hlz
  refine ⟨lz, hlz, fun f init ords hs => h.tokensAtWhile_eq f hs init,
    fun f init first => h.tokensFromWhile_eq f first init, fun hasc p => ⟨fun o t ht hp => ?_, ?_⟩⟩
  · exact h.block_le hlen hasc p ht hp
  · intro o t ht hp hfirst
    have hnear := h.block_near hlen hasc p (List.getElem?_eq_some_iff.mp ht).1 hfirst
    have hpos : 0 < checkpointEvery := by decide
    rw [List.length_drop, List.length_take]
    omega

/-- 66 tokens, the first of them in a longer form than `encode` gives, with the checkpoint of the
65th. -/
def looseBytes : List UInt8 :=
  [3, 0, 66, 0, 0, 0xc1, 4, 0, 0, 0, 0x80] ++ List.replicate 585 0 ++ [1, 0, 0, 0, 0, 0, 0, 0, 0]

def looseTok (term : Nat) : TokRec := ⟨term, .identifier, none, zero⟩

def looseStream : Stream := ⟨[], List.replicate 65 (looseTok 0) ++ [looseTok 1]⟩

theorem random_access_loose :
    looseBytes ≠ encode looseStream ∧ ∃ lz, decodeLazy looseBytes = .ok lz ∧
    lz.tokensAtWhile [1, 65] collect [] = .ok [looseTok 0, looseTok 1] := by
  obtain ⟨lz, hlz, hat, -⟩ :=
    random_access_agrees (show decode looseBytes = .ok looseStream by decide +kernel)
  exact ⟨by decide +kernel, lz, hlz, hat collect [] [1, 65] (by decide)⟩

end MemoryGraph.Codec
