import MemoryGraph.Codec.Records
import MemoryGraph.Codec.Ranges

/-! The parts of an encoded stream in closed form, and that the header of an encoded
stream parses to them. -/

namespace MemoryGraph.Codec
open Lib List
variable {tokens : List TokRec} {i : Nat} {t : TokRec}

def tokBytes : Span → List TokRec → List UInt8
  | _, [] => []
  | prev, t :: ts => putTok prev t ++ tokBytes t.span ts

def lastSpan (prev : Span) : List TokRec → Span
  | [] => prev
  | t :: ts => lastSpan t.span ts

theorem tokBytes_append (prev : Span) (ts us : List TokRec) :
    tokBytes prev (ts ++ us) = tokBytes prev ts ++ tokBytes (lastSpan prev ts) us := by
  induction ts generalizing prev with
  | nil => rfl
  | cons t ts ih => simp only [cons_append, tokBytes, lastSpan, ih, append_assoc]

theorem lastSpan_append (prev : Span) (ts us : List TokRec) :
    lastSpan prev (ts ++ us) = lastSpan (lastSpan prev ts) us := by
  induction ts generalizing prev with
  | nil => rfl
  | cons t ts ih => exact ih t.span

def tokOff (tokens : List TokRec) (i : Nat) : Nat := (tokBytes zero (tokens.take i)).length

def prevSpan (tokens : List TokRec) (i : Nat) : Span := lastSpan zero (tokens.take i)

def ckAt (tokens : List TokRec) (i : Nat) : Ck :=
  let prev := prevSpan tokens i
  ⟨tokOff tokens i, prev.start, prev.startLine, prev.startCol⟩

def ckOrds (n : Nat) : List Nat := (List.range n).filter (fun i => 0 < i ∧ i % checkpointEvery = 0)

def cksOf (tokens : List TokRec) : List Ck := (ckOrds tokens.length).map (ckAt tokens)

def ckBytes : Ck → List Ck → List UInt8
  | _, [] => []
  | last, ck :: cks => putCk ck last ++ ckBytes ck cks

theorem tokBytes_take_succ (h : tokens[i]? = some t) :
    tokBytes zero (tokens.take (i + 1)) =
      tokBytes zero (tokens.take i) ++ putTok (prevSpan tokens i) t := by
  rw [take_add_one, h, tokBytes_append]
  simp [tokBytes, prevSpan]

theorem prevSpan_succ (h : tokens[i]? = some t) :
    prevSpan tokens (i + 1) = t.span := by
  rw [prevSpan, take_add_one, h, lastSpan_append]
  rfl

theorem tokOff_succ (h : tokens[i]? = some t) :
    tokOff tokens (i + 1) = tokOff tokens i + (putTok (prevSpan tokens i) t).length := by
  rw [tokOff, tokBytes_take_succ h, length_append]
  rfl

theorem tokBytes_split (h : tokens[i]? = some t) :
    tokBytes zero tokens = tokBytes zero (tokens.take i) ++
      (putTok (prevSpan tokens i) t ++ tokBytes t.span (tokens.drop (i + 1))) := by
  conv_lhs => rw [← take_append_drop (i + 1) tokens, tokBytes_append]
  rw [tokBytes_take_succ h, append_assoc]
  congr 2
  rw [← prevSpan_succ h, prevSpan]

theorem putToks_eq (tokens : List TokRec) (ts : List TokRec) :
    ∀ (i : Nat), tokens.drop i = ts → i ≤ tokens.length → ∀ (last : Ck) (cks : List UInt8),
      putToks ts i (prevSpan tokens i) last cks (tokBytes zero (tokens.take i)) =
        (cks ++ ckBytes last (((List.range' i ts.length).filter
          (fun i => 0 < i ∧ i % checkpointEvery = 0)).map (ckAt tokens)),
          tokBytes zero tokens) := by
  -- by induction on the tokens left to write
  induction ts with
  | nil =>
    intro i hi hle last cks
    have : i = tokens.length := le_antisymm hle (drop_eq_nil_iff.mp hi)
    simp [putToks, this, ckBytes]
  | cons t ts ih =>
    intro i hi hle last cks
    have ht : tokens[i]? = some t := by
      rw [← head?_drop, hi]
      rfl
    have hrec := ih (i + 1) (by rw [← tail_drop, hi, tail_cons])
      (List.getElem?_eq_some_iff.mp ht).1
    rw [prevSpan_succ ht, tokBytes_take_succ ht] at hrec
    rw [putToks, length_cons, range'_succ, filter_cons]
    split_ifs with h1 h2 h2
    · rw [hrec, map_cons, ckBytes, append_assoc]
      rfl
    · simp [h1] at h2
    · simp [h1] at h2
    · exact hrec _ _

theorem putToks_init (tokens : List TokRec) : putToks tokens 0 zero Ck.init [] [] =
    (ckBytes Ck.init (cksOf tokens), tokBytes zero tokens) := by
  have h := putToks_eq tokens tokens 0 rfl (Nat.zero_le _) Ck.init []
  rwa [nil_append, ← range_eq_range'] at h

theorem ckOrds_eq (n : Nat) :
    ckOrds n =
      (List.range ((n - 1) / checkpointEvery)).map (fun j => (j + 1) * checkpointEvery) := by
  induction n with
  | zero => rfl
  | succ n ih =>
    rw [ckOrds, range_succ, filter_append, ← ckOrds, ih, Nat.add_sub_cancel]
    by_cases h : 0 < n ∧ n % 64 = 0
    · have hq : n / 64 = (n - 1) / 64 + 1 := by omega
      have hn : ((n - 1) / 64 + 1) * 64 = n := by omega
      simp only [checkpointEvery, hq, range_succ, map_append, map_cons, map_nil, hn]
      simp [h]
    · have hq : n / 64 = (n - 1) / 64 := by omega
      simp only [checkpointEvery, hq]
      simp [h]

theorem length_cksOf (tokens : List TokRec) :
    (cksOf tokens).length = (tokens.length - 1) / checkpointEvery := by
  simp [cksOf, ckOrds_eq]

theorem getElem?_cksOf {block : Nat} (h0 : 0 < block)
    (h : block * checkpointEvery < tokens.length) :
    (cksOf tokens)[block - 1]? = some (ckAt tokens (block * checkpointEvery)) := by
  have hlt : block - 1 < (tokens.length - 1) / 64 := by
    have h' : block * 64 < tokens.length := h
    omega
  have hb : block - 1 + 1 = block := by omega
  simp [cksOf, ckOrds_eq, checkpointEvery, hlt, hb]

theorem tokOff_mono (tokens : List TokRec) {i j : Nat} (h : i ≤ j) :
    tokOff tokens i ≤ tokOff tokens j := by
  have hpre : tokens.take i <+: tokens.take j := take_prefix_take_left h
  obtain ⟨us, hus⟩ := hpre
  rw [tokOff, tokOff, ← hus, tokBytes_append, length_append]
  exact Nat.le_add_right _ _

theorem length_tokBytes (prev : Span) (ts : List TokRec) :
    ts.length ≤ (tokBytes prev ts).length ∧ (tokBytes prev ts).length ≤ 81 * ts.length := by
  induction ts generalizing prev with
  | nil => simp [tokBytes]
  | cons t ts ih =>
    have h1 := length_putTok prev t
    have h2 := ih t.span
    simp only [tokBytes, length_append, length_cons]
    omega

theorem tokOff_length (tokens : List TokRec) :
    tokOff tokens tokens.length = (tokBytes zero tokens).length := by
  rw [tokOff, take_length]

theorem tokOff_lt (h : i < tokens.length) :
    tokOff tokens i < (tokBytes zero tokens).length := by
  have ht := getElem?_eq_getElem h
  have h1 := tokOff_succ ht
  have h2 := length_putTok (prevSpan tokens i) tokens[i]
  have h3 := tokOff_mono tokens (show i + 1 ≤ tokens.length from h)
  rw [tokOff_length] at h3
  omega

theorem reads_cks (cks : List Ck) :
    ∀ (last : Ck), (last :: cks).Pairwise (fun a b => a.off ≤ b.off) →
    (∀ ck ∈ cks, ck.off ≤ usizeMax) → Reads (readCks cks.length last) (ckBytes last cks) cks := by
  induction cks with
  | nil => exact fun _ _ _ => Reads.pure _
  | cons ck cks ih =>
    intro last hs hmax
    obtain ⟨hle, hs'⟩ := pairwise_cons.mp hs
    have hck := hmax ck mem_cons_self
    have hoff : last.off + (ck.off - last.off) = ck.off :=
      Nat.add_sub_cancel' (hle ck mem_cons_self)
    have hrec := ih ck hs' (fun c hc => hmax c (.tail _ hc))
    have hd : ck.off - last.off < 2 ^ 64 := by
      have : usizeMax < 2 ^ 64 := by decide
      omega
    rw [ckBytes, putCk, length_cons, append_assoc, append_assoc, append_assoc]
    refine (reads_varint hd).bind ?_
    simp only [hoff, if_neg (not_lt.mpr hck)]
    exact (reads_rel _ _).bind ((reads_rel _ _).bind ((reads_rel _ _).bind
      (hrec.bind_nil (Reads.pure _))))

theorem cksOf_sorted (tokens : List TokRec) :
    (Ck.init :: cksOf tokens).Pairwise (fun a b => a.off ≤ b.off) := by
  refine pairwise_cons.mpr ⟨fun _ _ => Nat.zero_le _, ?_⟩
  rw [cksOf, pairwise_map]
  exact (pairwise_lt_range.filter _).imp fun h => tokOff_mono tokens h.le

theorem mem_cksOf {ck : Ck} (h : ck ∈ cksOf tokens) :
    ∃ i < tokens.length, ck = ckAt tokens i := by
  obtain ⟨i, hi, rfl⟩ := mem_map.mp h
  exact ⟨i, mem_range.mp (mem_filter.mp hi).1, rfl⟩

end MemoryGraph.Codec
