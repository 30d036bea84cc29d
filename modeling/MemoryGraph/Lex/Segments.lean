import MemoryGraph.Lex.Tokens

/-! Passes over the tokens of a source that put one token in the place of several: what covers the
source before covers it after. -/

namespace MemoryGraph.Lex
open Lib Utf8 List
variable {toks out : List TokenDecl}

theorem lineAfter_append (pre : List Char) {text : List Char} (h : '\n' ∉ text) :
    lineAfter (pre ++ text) = lineAfter pre := by
  rw [lineAfter, count_append, count_eq_zero_of_not_mem h, Nat.add_zero, lineAfter]

theorem colAfter_append (pre : List Char) {text : List Char} (h : '\n' ∉ text) :
    colAfter (pre ++ text) = colAfter pre + text.countP (· ≠ '\ufeff') := by
  induction text using reverseRecOn with
  | nil => rw [append_nil, countP_nil, Nat.add_zero]
  | append_singleton text c ih =>
    rw [mem_append, not_or, mem_singleton] at h
    rw [← append_assoc, colAfter_concat, if_neg (Ne.symm h.2), ih h.1, countP_append,
      countP_singleton]
    split_ifs with h₁ h₂ h₂
    · exact absurd h₁ (by simpa using h₂)
    · rfl
    · rfl
    · exact absurd (by simpa using h₁) h₂

section
variable {u : Unicode} {src : List Char}

theorem Placed.congr {t t' : TokenDecl} {pre text post : List Char} (h : Placed src t pre text post)
    (htext : t'.text = t.text) (hspan : t'.span = t.span) : Placed src t' pre text post :=
  ⟨h.split, h.ne_nil, htext.trans h.text_eq, hspan ▸ h.start, hspan ▸ h.stop, hspan ▸ h.startLine,
    hspan ▸ h.startCol, hspan ▸ h.endLine, hspan ▸ h.endCol⟩

structure Joins (src : List Char) (run : List TokenDecl) (t : TokenDecl) (after : List TokenDecl) :
    Prop where
  placed : ∃ pre text post, Placed src t pre text post
  start : ∃ r ∈ run, r.span.start = t.span.start
  spans : ∀ r ∈ run, t.span.start ≤ r.span.start ∧ r.span.stop ≤ t.span.stop
  before : ∀ x ∈ after, t.span.stop ≤ x.span.start

inductive Merged (src : List Char) : List TokenDecl → List TokenDecl → Prop
  | nil : Merged src [] []
  | join {run rest out : List TokenDecl} {t : TokenDecl} :
    Joins src run t rest → Merged src rest out → Merged src (run ++ rest) (t :: out)

theorem Merged.keep {t t' : TokenDecl} {rest out : List TokenDecl} (htext : t'.text = t.text)
    (hspan : t'.span = t.span) (ht : ∃ pre text post, Placed src t pre text post)
    (hrest : ∀ x ∈ rest, t.span.stop ≤ x.span.start) (h : Merged src rest out) :
    Merged src (t :: rest) (t' :: out) := by
  obtain ⟨pre, text, post, hp⟩ := ht
  apply @Merged.join src [t] rest out t' _ h
  refine ⟨⟨pre, text, post, hp.congr htext hspan⟩, ⟨t, mem_singleton_self t, by rw [hspan]⟩,
    fun r hr => ?_, by rwa [hspan]⟩
  rw [mem_singleton.mp hr, hspan]
  exact ⟨le_rfl, le_rfl⟩

theorem Merged.starts (h : Merged src toks out) :
    ∀ t ∈ out, ∃ r ∈ toks, r.span.start = t.span.start := by
  induction h with
  | nil => exact nofun
  | join hj _ ih =>
    refine forall_mem_cons.mpr ⟨?_, fun t ht => ?_⟩
    · obtain ⟨r, hr, heq⟩ := hj.start
      exact ⟨r, mem_append_left _ hr, heq⟩
    · obtain ⟨r, hr, heq⟩ := ih t ht
      exact ⟨r, mem_append_right _ hr, heq⟩

theorem Merged.placed (h : Merged src toks out) :
    ∀ t ∈ out, ∃ pre text post, Placed src t pre text post := by
  induction h with
  | nil => exact nofun
  | join hj _ ih => exact forall_mem_cons.mpr ⟨hj.placed, ih⟩

theorem Merged.ordered (h : Merged src toks out) :
    out.Pairwise fun a b => a.span.stop ≤ b.span.start := by
  induction h with
  | nil => exact .nil
  | join hj h ih =>
    refine pairwise_cons.mpr ⟨fun x hx => ?_, ih⟩
    obtain ⟨r, hr, heq⟩ := h.starts x hx
    rw [← heq]
    exact hj.before r hr

theorem Merged.spans (h : Merged src toks out) :
    ∀ r ∈ toks, ∃ t ∈ out, t.span.start ≤ r.span.start ∧ r.span.stop ≤ t.span.stop := by
  induction h with
  | nil => exact nofun
  | join hj _ ih =>
    intro r hr
    rcases mem_append.mp hr with hr | hr
    · exact ⟨_, mem_cons_self, hj.spans r hr⟩
    · obtain ⟨t, ht, hspans⟩ := ih r hr
      exact ⟨t, mem_cons_of_mem _ ht, hspans⟩

theorem Covers.merged (h : Covers u src toks) (hm : Merged src toks out) : Covers u src out := by
  refine ⟨hm.placed, hm.ordered, fun pre c post hsrc hout =>
    h.gaps pre c post hsrc fun r hr hin => ?_⟩
  obtain ⟨t, ht, hstart, hstop⟩ := hm.spans r hr
  rw [Fin.le_def] at hstart hstop
  exact hout t ht ⟨hstart.trans hin.1, hin.2.trans_le hstop⟩

theorem Covers.congr (h : Covers u src toks)
    (heq : out.map (fun t => (t.text, t.span)) = toks.map fun t => (t.text, t.span)) :
    Covers u src out := by
  have hsame : ∀ a b : List TokenDecl, a.map (fun t => (t.text, t.span)) =
      b.map (fun t => (t.text, t.span)) → ∀ t ∈ a, ∃ r ∈ b, r.text = t.text ∧ r.span = t.span := by
    intro a b hab t ht
    have hmem := mem_map_of_mem (f := fun t : TokenDecl => (t.text, t.span)) ht
    rw [hab] at hmem
    obtain ⟨r, hr, hrt⟩ := mem_map.mp hmem
    exact ⟨r, hr, (Prod.mk.inj hrt).1, (Prod.mk.inj hrt).2⟩
  refine ⟨fun t ht => ?_, ?_, fun pre c post hsrc hout => h.gaps pre c post hsrc fun r hr hin => ?_⟩
  · obtain ⟨r, hr, htext, hspan⟩ := hsame out toks heq t ht
    obtain ⟨pre, text, post, hp⟩ := h.placed r hr
    exact ⟨pre, text, post, hp.congr htext.symm hspan.symm⟩
  · have hpair : ∀ l : List TokenDecl, (l.map fun t => (t.text, t.span)).Pairwise (fun a b =>
        a.2.stop ≤ b.2.start) ↔ l.Pairwise fun a b =>
        a.span.stop ≤ b.span.start := fun _ => pairwise_map
    rw [← hpair, heq, hpair]
    exact h.ordered
  · obtain ⟨t, ht, -, hspan⟩ := hsame toks out heq.symm r hr
    exact hout t ht (by rwa [hspan])

end

theorem not_covers_long {n : Nat} (hn : n + 1 = 4294967296) (u : Unicode) {toks : List TokenDecl} :
    ¬Covers u (List.replicate (n + 1) 'a') toks := by
  intro h
  have hout : ∀ t ∈ toks, ¬(t.span.start.val ≤ byteLen (replicate n 'a') ∧
      byteLen (replicate n 'a') < t.span.stop.val) := by
    intro t _ hin
    rw [byteLen_replicate] at hin
    have := t.span.stop.isLt
    omega
  rcases h.gaps (replicate n 'a') 'a' [] replicate_succ' hout with hspace | hmark
  · exact Bool.false_ne_true hspace
  · exact absurd hmark (by decide)

end MemoryGraph.Lex
