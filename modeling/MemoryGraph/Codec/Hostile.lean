import MemoryGraph.Codec.Machine
import MemoryGraph.Codec.Ranges

/-! Hostile bytes: no check of the machine fails, whatever is decoded, so that the decoder is
the plain one and the only errors are those it returns. -/

namespace MemoryGraph
open List Nat
variable {ord : Nat} {what : String} {α : Type} {a b : Nat}

def StoreError.isCorrupt : StoreError → Bool
  | .corrupt _ => true
  | _ => false

namespace Codec
open Lib

def isizeMax : Nat := 9223372036854775807

abbrev Slice := { b : List UInt8 // b.length ≤ isizeMax }

/-- The computation succeeds with a `P` or returns an error about the bytes. -/
def OkOrCorrupt {α : Type} (x : Except StoreError α) (P : α → Prop) : Prop :=
  (∀ a, x = .ok a → P a) ∧ ∀ e, x = .error e → e.isCorrupt = true

def Within (b : List UInt8) (c : Cursor) : Prop := c.b = b ∧ c.pos ≤ b.length

abbrev Agrees {α : Type} (x y : Except StoreError α) (P : α → Prop) : Prop :=
  Passes (fun e => e.isCorrupt = true) x y P

abbrev ReadAgrees {α : Type} (b : List UInt8) (p q : Reader α) (P : α → Prop) : Prop :=
  ReadPasses (Within b) (fun e => e.isCorrupt = true) p q P

abbrev Anything {α : Type} (_ : α) : Prop := True

theorem Agrees.okOrCorrupt {x y : Except StoreError α} {P : α → Prop} (h : Agrees x y P) :
    OkOrCorrupt x P := ⟨fun _ ha => h.ok_of ha, fun _ he => h.error_of he⟩

def ParentBelow (n : Nat) (parent : Option U32) : Prop := ∀ p ∈ parent, p.val < n

theorem parentBelow_of_not_any {n : Nat} {parent : Option U32}
    (h : ¬parent.any (fun p => n ≤ p.val)) : ParentBelow n parent := by
  intro p hp
  rw [Option.mem_def.mp hp] at h
  simpa using h

structure Lazy.Bounded (input : Nat) (lz : Lazy) : Prop where
  small : input ≤ isizeMax
  records : lz.nsym + lz.ntok ≤ input
  symBytes : lz.symBytes.length ≤ input
  toks : lz.toks.length ≤ input
  cks : lz.cks.length = (lz.ntok - 1) / checkpointEvery
  off : ∀ c ∈ lz.cks, c.off ≤ lz.toks.length

theorem Lazy.Bounded.exists_ck {input : Nat} {lz : Lazy} (h : lz.Bounded input)
    (hord : ord < lz.ntok) (hblock : 0 < ord / checkpointEvery) :
    ∃ c, lz.cks[ord / checkpointEvery - 1]? = some c ∧ c.off ≤ lz.toks.length := by
  have hle : ord / checkpointEvery ≤ (lz.ntok - 1) / checkpointEvery :=
    Nat.div_le_div_right (by omega)
  have hlt : ord / checkpointEvery - 1 < lz.cks.length := by
    rw [h.cks]
    omega
  exact ⟨_, getElem?_eq_getElem hlt, h.off _ (getElem_mem hlt)⟩

theorem Lazy.Bounded.lt_usizeMax {input : Nat} {lz : Lazy} (h : lz.Bounded input)
    (hord : ord < lz.ntok) : ord < usizeMax := by
  have h1 := h.small
  have h2 := h.records
  unfold isizeMax at h1
  unfold usizeMax
  omega

theorem off_le_getLast {cks : List Ck} (h : cks.Pairwise fun c d => c.off ≤ d.off) {n : Nat}
    (hn : ¬cks.getLast?.any (fun c => n ≤ c.off)) : ∀ c ∈ cks, c.off ≤ n := by
  intro c hc
  obtain ⟨xs, l, rfl⟩ := eq_nil_or_concat' cks |>.resolve_left (ne_nil_of_mem hc)
  have hl : l.off < n := by simpa using hn
  rcases mem_append.mp hc with hx | hx
  · have hle := (pairwise_append.mp h).2.2 c hx l (mem_singleton_self l)
    omega
  · rw [mem_singleton.mp hx]
    exact hl.le

namespace Machine

theorem add_eq (h : a + b ≤ usizeMax) : add a b = .ok (a + b) := if_pos h

theorem addU32_eq (h : a + b < 4294967296) : addU32 a b = .ok (a + b) := if_pos h

theorem sub_eq (h : b ≤ a) : sub a b = .ok (a - b) := if_pos h

theorem mul_eq (h : a * b ≤ usizeMax) : mul a b = .ok (a * b) := if_pos h

theorem index_eq {xs : List α} {i : Nat} {x : α} (h : xs[i]? = some x) : index xs i = .ok x := by
  rw [index, h]

theorem slice_eq {b : List UInt8} {lo hi : Nat} (h : lo ≤ hi) (hb : hi ≤ b.length) :
    slice b lo hi = .ok ((b.drop lo).take (hi - lo)) := if_pos ⟨h, hb⟩

theorem withCapacity_eq {input n : Nat} (h : n ≤ input) : withCapacity input n = .ok () := if_pos h

theorem shl_eq {x : UInt8} {shift : Nat} (h7 : shift ≤ 56 ∨ shift = 63)
    (h1 : ¬(shift > 63 ∨ (shift = 63 ∧ x > 1))) :
    shl (x &&& 0x7f).toNat shift = .ok ((x &&& 0x7f).toNat <<< shift) := by
  have hx : (x &&& 0x7f).toNat ≤ 127 := by
    rw [UInt8.toNat_and]
    exact Nat.and_le_right
  have hsmall : (x &&& 0x7f).toNat <<< shift < 18446744073709551616 := by
    rw [Nat.shiftLeft_eq]
    rcases h7 with h | rfl
    · have hpow := Nat.pow_le_pow_right (n := 2) (by decide) h
      calc (x &&& 0x7f).toNat * 2 ^ shift ≤ 127 * 2 ^ 56 := Nat.mul_le_mul hx hpow
        _ < 18446744073709551616 := by decide
    · have hle : x.toNat ≤ 1 := by
        by_contra hgt
        exact h1 (.inr ⟨rfl, UInt8.lt_iff_toNat_lt.mpr (Nat.lt_of_not_le hgt)⟩)
      have h2 : (x &&& 0x7f).toNat ≤ 1 := by
        rw [UInt8.toNat_and]
        exact Nat.and_le_left.trans hle
      omega
  rw [shl, if_pos (by omega), Nat.mod_eq_of_lt hsmall]

theorem unzigzag_eq (v : BitVec 64) : unzigzag v = .ok (Codec.unzigzag v) := by
  have hne : v &&& 1 ≠ BitVec.intMin 64 := by
    intro h
    have h2 := congrArg BitVec.toNat h
    rw [toNat_and_one] at h2
    have h3 : (BitVec.intMin 64).toNat = 9223372036854775808 := by decide
    omega
  rw [unzigzag, neg, if_neg hne]
  rfl

section
variable {b : List UInt8}

theorem refuses {P : α → Prop} : ReadAgrees b (throw (bad what)) (throw (bad what)) P :=
  .throw rfl

theorem refuses_bind {α β : Type} {P : β → Prop} {f g : α → Reader β} :
    ReadAgrees b (throw (bad what) >>= f) (throw (bad what) >>= g) P := fun _ _ => .error rfl

theorem refuses_when {β : Type} {c : Prop} [Decidable c] {P : β → Prop} {f g : Unit → Reader β}
    (hf : ¬c → ReadAgrees b (f ()) (g ()) P) :
    ReadAgrees b (failIf c (bad what) >>= f) (failIf c (bad what) >>= g) P :=
  ReadPasses.check (E := fun e : StoreError => e.isCorrupt = true) rfl hf

omit b in
theorem refuses_if {β : Type} {c : Prop} [Decidable c] {P : β → Prop}
    {f g : Unit → Except StoreError β} (hf : ¬c → Agrees (f ()) (g ()) P) :
    Agrees (failIf c (bad what) >>= f) (failIf c (bad what) >>= g) P :=
  Passes.check (E := fun e : StoreError => e.isCorrupt = true) rfl hf

theorem returns {a : α} : ReadAgrees b (pure a) (pure a) Anything := .pure trivial

variable (hb : b.length ≤ isizeMax)
include hb

theorem agrees_byte : ReadAgrees b byte Codec.byte Anything := by
  rintro c ⟨rfl, hpos⟩
  unfold Passes
  cases h : c.b[c.pos]? with
  | none =>
    have h1 : byte.run c = .error (bad "truncated") := by
      simp only [byte, StateT.run_bind, StateT.run_get, pure_bind, h]
      rfl
    have h2 : Codec.byte.run c = .error (bad "truncated") := by
      simp only [Codec.byte, StateT.run, h]
    rw [h1, h2]
    exact ⟨rfl, rfl⟩
  | some v =>
    have hlt := lt_of_getElem? h
    have hadd : add c.pos 1 = .ok (c.pos + 1) :=
      add_eq (by unfold isizeMax at hb; unfold usizeMax; omega)
    have h1 : byte.run c = .ok (v, { c with pos := c.pos + 1 }) := by
      simp only [byte, StateT.run_bind, StateT.run_get, pure_bind, h, hadd]
      rfl
    have h2 : Codec.byte.run c = .ok (v, { c with pos := c.pos + 1 }) := by
      simp only [Codec.byte, StateT.run, h]
    rw [h1, h2]
    exact ⟨rfl, ⟨rfl, hlt⟩, trivial⟩

theorem agrees_varintGo (n v shift : Nat) (hs : shift + 7 * n = 70) :
    ReadAgrees b (varintGo (n + 1) v shift) (Codec.varintGo (n + 1) v shift) Anything := by
  induction n generalizing v shift with
  | zero =>
    refine .bind (agrees_byte hb) fun x _ => .ite (fun _ => refuses_bind) fun hc => ?_
    -- The eleventh byte never gets past the check.
    exact absurd (.inl (by omega)) hc
  | succ n ih =>
    refine .bind (agrees_byte hb) fun x _ => .ite (fun _ => refuses_bind) fun hc => ?_
    refine .checked (shl_eq (by omega) hc) ?_
    refine .ite (fun _ => returns) fun _ => ?_
    exact .checked (addU32_eq (by omega)) (ih _ _ (by omega))

theorem agrees_varint : ReadAgrees b varint Codec.varint Anything := by
  have hgo := agrees_varintGo hb 10 0 0 rfl
  rintro c ⟨rfl, hpos⟩
  have hc := hgo c ⟨rfl, hpos⟩
  cases h : c.b[c.pos]? with
  | none =>
    have h1 : varint.run c = (varintGo 11 0 0).run c := by
      simp only [varint, StateT.run_bind, StateT.run_get, pure_bind, h]
    have h2 : Codec.varint.run c = (Codec.varintGo 11 0 0).run c := by
      simp only [Codec.varint, StateT.run, h]
    rw [h1, h2]
    exact hc
  | some x =>
    by_cases hx : x < 0x80
    · have hlt := lt_of_getElem? h
      have hadd : add c.pos 1 = .ok (c.pos + 1) :=
        add_eq (by unfold isizeMax at hb; unfold usizeMax; omega)
      have h1 : varint.run c = .ok (x.toNat, { c with pos := c.pos + 1 }) := by
        simp only [varint, StateT.run_bind, StateT.run_get, pure_bind, h, if_pos hx, hadd]
        rfl
      have h2 : Codec.varint.run c = .ok (x.toNat, { c with pos := c.pos + 1 }) := by
        simp only [Codec.varint, StateT.run, h, if_pos hx]
      rw [h1, h2]
      exact .ok ⟨⟨rfl, hlt⟩, trivial⟩
    · have h1 : varint.run c = (varintGo 11 0 0).run c := by
        simp only [varint, StateT.run_bind, StateT.run_get, pure_bind, h, if_neg hx]
      have h2 : Codec.varint.run c = (Codec.varintGo 11 0 0).run c := by
        simp only [Codec.varint, StateT.run, h, if_neg hx]
      rw [h1, h2]
      exact hc

theorem agrees_rel (base : U32) : ReadAgrees b (rel base) (Codec.rel base) Anything := by
  refine .bind (agrees_varint hb) fun n _ => .checked (unzigzag_eq _) ?_
  refine .ite (fun _ => refuses_bind) fun _ => .ite (fun _ => refuses_bind) fun _ => ?_
  cases toU32 (base.val + (Codec.unzigzag (BitVec.ofNat 64 n)).toInt).toNat with
  | some x => exact returns
  | none => exact refuses

theorem agrees_readSpan (prev : Span) :
    ReadAgrees b (readSpan prev) (Codec.readSpan prev) Anything := by
  refine .bind (agrees_rel hb _) fun _ _ => .bind (agrees_rel hb _) fun _ _ =>
    .bind (agrees_rel hb _) fun _ _ =>
    .bind (agrees_rel hb _) fun _ _ => .bind (agrees_rel hb _) fun _ _ =>
      .bind (agrees_varint hb) fun n _ => ?_
  cases toU32 n with
  | some x => exact returns
  | none => exact refuses

theorem agrees_parent : ReadAgrees b parent Codec.parent Anything := by
  refine .bind (agrees_varint hb) fun p _ => .ite (fun _ => returns) fun hp => ?_
  refine .checked (sub_eq (one_le_iff_ne_zero.mpr hp)) ?_
  cases toU32 (p - 1) with
  | some x => exact returns
  | none => exact refuses

theorem agrees_readCks (n : Nat) (last : Ck) : ReadAgrees b (readCks n last) (Codec.readCks n last)
    fun cks => cks.length = n ∧ (last :: cks).Pairwise fun c d => c.off ≤ d.off := by
  induction n generalizing last with
  | zero => exact .pure ⟨rfl, pairwise_singleton _ _⟩
  | succ n ih =>
    refine .bind (agrees_varint hb) fun d _ => .ite (fun _ => refuses_bind) fun _ => ?_
    refine .bind (agrees_rel hb _) fun start _ => .bind (agrees_rel hb _) fun line _ =>
      .bind (agrees_rel hb _) fun col _ => .bind (ih _) ?_
    rintro cks ⟨hlen, hasc⟩
    refine .pure ⟨by rw [length_cons, hlen], pairwise_cons.mpr ⟨?_, hasc⟩⟩
    intro c hc
    have hle : last.off ≤ last.off + d := le_add_right _ _
    rcases mem_cons.mp hc with rfl | hc
    · exact hle
    · exact hle.trans ((pairwise_cons.mp hasc).1 c hc)

theorem agrees_readHeader : ReadAgrees b readHeader Codec.readHeader Anything :=
  .bind (agrees_byte hb) fun _ _ => .ite (fun _ => refuses_bind) fun _ =>
    .bind (agrees_varint hb) fun _ _ =>
    .bind (agrees_varint hb) fun _ _ => .bind (agrees_varint hb) fun _ _ =>
      .bind (agrees_byte hb) fun _ _ =>
      .ite (fun _ => refuses_bind) fun _ => returns

theorem agrees_decodeLazy : Agrees (decodeLazy b) (Codec.decodeLazy b) (Lazy.Bounded b.length) := by
  refine .bind (agrees_readHeader hb ⟨b, 0⟩ ⟨rfl, Nat.zero_le _⟩) ?_
  rintro ⟨⟨nsym, ntok, symlen, flags⟩, c⟩ - ⟨⟨-, hpos⟩, -⟩
  refine refuses_if fun hrec => refuses_if fun hsym => ?_
  have hsec : slice b c.pos (c.pos + symlen) = .ok ((b.drop c.pos).take symlen) := by
    rw [slice_eq (Nat.le_add_right _ _) (Nat.le_of_not_lt hsym), Nat.add_sub_cancel_left]
  refine .checked hsec <| refuses_if fun hnck =>
    .checked (withCapacity_eq (Nat.le_of_not_lt hnck)) ?_
  refine .bind (agrees_readCks hb _ _ ⟨b, c.pos + symlen⟩ ⟨rfl, Nat.le_of_not_lt hsym⟩) ?_
  rintro ⟨cks, c'⟩ - ⟨⟨-, hpos'⟩, hlen, hasc⟩
  have hrest : slice b c'.pos b.length = .ok (b.drop c'.pos) := by
    rw [slice_eq hpos' le_rfl, take_of_length_le (by rw [length_drop])]
  refine .checked hrest <| refuses_if fun hoff => .ok ?_
  exact
    { small := hb
      records := by
        unfold satAdd usizeMax at hrec
        unfold isizeMax at hb
        dsimp only
        omega
      symBytes := by
        rw [length_take, length_drop]
        omega
      toks := by
        rw [length_drop]
        omega
      cks := hlen
      off := off_le_getLast (pairwise_cons.mp hasc).2 hoff }

theorem agrees_readKind : ReadAgrees b readKind Codec.readKind Anything := by
  refine .bind (agrees_byte hb) fun x _ => ?_
  cases kinds[x.toNat]? with
  | some k => exact returns
  | none => exact refuses

theorem agrees_readId : ReadAgrees b readId Codec.readId Anything :=
  .bind (agrees_varint hb) fun _ _ => returns

theorem agrees_readOwner (hasOwners : Bool) :
    ReadAgrees b (readOwner hasOwners) (Codec.readOwner hasOwners) Anything :=
  .ite (fun _ => agrees_readId hb) fun _ => returns

theorem agrees_readRange (prevFirst : U32) :
    ReadAgrees b (readRange prevFirst) (Codec.readRange prevFirst) Anything := by
  refine .bind (agrees_varint hb) fun n _ => .ite (fun _ => returns) fun hn => ?_
  refine .bind (agrees_rel hb _) fun first _ => .checked (sub_eq (one_le_iff_ne_zero.mpr hn)) ?_
  cases toU32 (n - 1) with
  | none => exact refuses
  | some len =>
    dsimp only
    cases toU32 (first.val + len.val) with
    | none => exact refuses
    | some last => exact returns

theorem agrees_readSym (hasOwners : Bool) (i : Nat) (prev : Span) (prevFirst : U32) :
    ReadAgrees b (readSym hasOwners i prev prevFirst) (Codec.readSym hasOwners i prev prevFirst)
      fun s => ParentBelow i s.parent := by
  refine .bind (agrees_varint hb) fun _ _ => .bind (agrees_readKind hb) fun _ _ =>
    .bind (agrees_readId hb) fun _ _ =>
    .bind (agrees_readOwner hb _) fun _ _ => .bind (agrees_parent hb) fun parent _ => ?_
  refine .ite (fun _ => refuses_bind) fun hp => .bind (agrees_readSpan hb _) fun _ _ =>
    .bind (agrees_readRange hb _) fun _ _ => .pure ?_
  exact parentBelow_of_not_any hp

theorem agrees_readSyms (hasOwners : Bool) (n i : Nat) (prev : Span) (prevFirst : U32) :
    ReadAgrees b (readSyms hasOwners n i prev prevFirst)
      (Codec.readSyms hasOwners n i prev prevFirst) fun syms => syms.length = n ∧
      ∀ k s, syms[k]? = some s → ParentBelow (i + k) s.parent := by
  induction n generalizing i prev prevFirst with
  | zero => exact .pure ⟨rfl, fun k s h => by cases h⟩
  | succ n ih =>
    refine .bind (agrees_readSym hb _ _ _ _) fun sym hsym => .bind (ih _ _ _) ?_
    rintro syms ⟨hlen, hbelow⟩
    refine .pure ⟨by rw [length_cons, hlen], fun k s hk => ?_⟩
    cases k with
    | zero =>
      cases hk
      exact hsym
    | succ k =>
      have := hbelow k s hk
      rwa [add_right_comm] at this

theorem agrees_readClass : ReadAgrees b readClass Codec.readClass Anything := by
  refine .bind (agrees_byte hb) fun x _ => ?_
  cases classes[x.toNat]? with
  | some k => exact returns
  | none => exact refuses

theorem agrees_record (lz : Lazy) (prev : Span) :
    ReadAgrees b (record lz prev) (lz.record prev) fun t => ParentBelow lz.nsym t.parent := by
  refine .bind (agrees_varint hb) fun _ _ => .bind (agrees_readClass hb) fun _ _ =>
    .bind (agrees_parent hb) fun p _ => ?_
  refine .ite (fun _ => refuses_bind) fun hp => .bind (agrees_readSpan hb _) fun _ _ => .pure ?_
  exact parentBelow_of_not_any hp

end

section
variable {input : Nat} {lz : Lazy} (hlz : lz.Bounded input)
include hlz

theorem agrees_symbols : Agrees (symbols input lz) lz.symbols
    fun syms => syms.length = lz.nsym ∧ EarlierParents syms := by
  have hin := hlz.records
  refine .checked (withCapacity_eq (by omega)) ?_
  refine .bind (agrees_readSyms (hlz.symBytes.trans hlz.small) _ _ 0 zero 0 ⟨lz.symBytes, 0⟩
    ⟨rfl, zero_le _⟩) ?_
  rintro ⟨syms, c⟩ - ⟨-, hlen, hbelow⟩
  refine refuses_if fun _ => .ok ⟨hlen, fun i s hs => ?_⟩
  have := hbelow i s hs
  rwa [zero_add] at this

theorem toks_small : lz.toks.length ≤ isizeMax := hlz.toks.trans hlz.small

theorem agrees_checkCk (hord : ord < lz.ntok) (prev : Span) :
    ReadAgrees lz.toks (checkCk lz ord prev) (lz.checkCk ord prev) Anything := by
  refine .ite (fun hc => ?_) fun _ => returns
  have hblock : 0 < ord / checkpointEvery := by
    have hdvd := dvd_of_mod_eq_zero hc.2
    exact div_pos (le_of_dvd hc.1 hdvd) (by decide)
  obtain ⟨c, hck, -⟩ := hlz.exists_ck hord hblock
  rw [hck]
  refine .checked (sub_eq hblock) <| .checked (index_eq hck) <| .bind .get fun r _ => ?_
  exact .ite (fun _ => refuses) fun _ => returns

variable {σ : Type} {f : Visitor σ} {P : σ → Prop}
  (hf : ∀ ord t st, P st → ParentBelow lz.nsym t.parent → P (f ord t st).1)
include hf

theorem agrees_tokensGo (n ord : Nat) (prev : Span) {st : σ} (hst : P st)
    (hord : ord + n ≤ lz.ntok) :
    ReadAgrees lz.toks (tokensGo lz f n ord prev st) (lz.tokensGo f n ord prev st) fun r =>
      P r.1 := by
  induction n generalizing ord prev st with
  | zero => exact .pure hst
  | succ n ih =>
    refine .bind (agrees_checkCk hlz (by omega) prev) fun _ _ =>
      .bind (agrees_record (toks_small hlz) lz prev) fun t ht => ?_
    have hnext := hf ord t st hst ht
    exact .ite (fun _ => ih _ _ hnext (by omega)) fun _ => .pure hnext

theorem agrees_tokens {init : σ} (hinit : P init) :
    Agrees (tokens lz f init) (lz.tokens f init) P := by
  refine .bind (agrees_tokensGo hlz hf lz.ntok 0 zero hinit (by omega) ⟨lz.toks, 0⟩
    ⟨rfl, zero_le _⟩) ?_
  rintro ⟨⟨st, full⟩, c⟩ - ⟨-, hst⟩
  exact refuses_if fun _ => .ok hst

omit hf

theorem agrees_seek (hord : ord < lz.ntok) (hblock : 0 < ord / checkpointEvery) :
    ReadAgrees lz.toks (seek lz (ord / checkpointEvery)) (lz.seek (ord / checkpointEvery))
      Anything := by
  obtain ⟨c, hck, hoff⟩ := hlz.exists_ck hord hblock
  unfold seek Lazy.seek
  rw [hck]
  refine .checked (sub_eq hblock) <| .checked (index_eq hck) <| .bind (.modify ?_) fun _ _ =>
    returns
  rintro r ⟨hr, -⟩
  exact ⟨hr, hoff⟩

theorem agrees_skip (n next : Nat) (prev : Span) (hnext : next + n ≤ usizeMax) :
    ReadAgrees lz.toks (skip lz n next prev) ((·, next + n) <$> lz.skip n prev) Anything := by
  induction n generalizing next prev with
  | zero => exact returns
  | succ n ih =>
    unfold skip Lazy.skip
    rw [map_bind]
    refine .bind (agrees_record (toks_small hlz) lz prev) fun t _ => .checked (add_eq (by omega)) ?_
    have := ih (next + 1) t.span (by omega)
    rwa [add_right_comm, add_assoc] at this

theorem agrees_approach {ord next : Nat} (hord : ord < lz.ntok) (hnext : next ≤ ord) (prev : Span) :
    ReadAgrees lz.toks (approach lz ord next prev) (lz.approach ord next prev) fun r =>
    r.2 ≤ ord := by
  have hle : ord / checkpointEvery * checkpointEvery ≤ ord := Nat.div_mul_le_self _ _
  have hmax := hlz.lt_usizeMax hord
  refine .checked (mul_eq (by omega)) <| .ite (fun h => ?_) fun _ => .pure hnext
  have hblock : 0 < ord / checkpointEvery := by
    by_contra h0
    rw [Nat.eq_zero_of_not_pos h0, Nat.zero_mul] at h
    exact Nat.not_lt_zero _ h
  exact .bind (agrees_seek hlz hord hblock) fun _ _ => .pure hle

include hf

theorem agrees_tokensAtGo (ords : List Nat) (last : Option Nat) (next : Nat) (prev : Span) {st : σ}
    (hst : P st) (hnext : next = last.elim 0 (· + 1)) :
    ReadAgrees lz.toks (tokensAtGo lz f ords last next prev st)
      (lz.tokensAtGo f ords last next prev st) P := by
  induction ords generalizing last next prev st with
  | nil => exact .pure hst
  | cons ord ords ih =>
    refine refuses_when fun hord => ?_
    obtain ⟨hlt, hlast⟩ := not_or.mp hord
    have hle : next ≤ ord := by
      cases last with
      | none => exact hnext.trans_le (Nat.zero_le _)
      | some l =>
        have : l < ord := by simpa using hlast
        exact hnext.trans_le this
    have hmax := hlz.lt_usizeMax (Nat.lt_of_not_le hlt)
    refine .bind (agrees_approach hlz (Nat.lt_of_not_le hlt) hle prev) ?_
    rintro ⟨prev₁, next₁⟩ hle₁
    dsimp only at hle₁ ⊢
    refine .bind_map (agrees_skip hlz (ord - next₁) next₁ prev₁ (by omega)) fun prev₂ _ => ?_
    refine .bind (agrees_record (toks_small hlz) lz prev₂) fun t ht => ?_
    have hnext' := hf ord t st hst ht
    rw [Nat.add_sub_cancel' hle₁]
    refine .checked (add_eq (by omega)) <| .ite (fun _ => ?_) fun _ => .pure hnext'
    exact ih (some ord) (ord + 1) t.span hnext' rfl

theorem agrees_tokensAtWhile (ords : List Nat) {init : σ} (hinit : P init) :
    Agrees (tokensAtWhile lz ords f init) (lz.tokensAtWhile ords f init) P := by
  refine .bind (agrees_tokensAtGo hlz hf ords none 0 zero hinit rfl ⟨lz.toks, 0⟩ ⟨rfl, zero_le _⟩)
    ?_
  rintro ⟨st, c⟩ - ⟨-, hst⟩
  exact .ok hst

theorem agrees_tokensFromGo (first n ord : Nat) (prev : Span) {st : σ} (hst : P st)
    (hord : ord + n ≤ lz.ntok) :
    ReadAgrees lz.toks (tokensFromGo lz first f n ord prev st)
      (lz.tokensFromGo first f n ord prev st) P := by
  induction n generalizing ord prev st with
  | zero => exact .pure hst
  | succ n ih =>
    have hmax := hlz.lt_usizeMax (show ord < lz.ntok by omega)
    refine .bind (agrees_record (toks_small hlz) lz prev) fun t ht => .ite (fun _ => ?_) fun _ => ?_
    · have hnext := hf ord t st hst ht
      refine .ite (fun _ => .checked (add_eq hmax) ?_) fun _ => .pure hnext
      exact ih _ _ hnext (by omega)
    · exact .checked (add_eq hmax) (ih _ _ hst (by omega))

theorem agrees_walkFrom {first : Nat} (hfirst : first < lz.ntok) {init : σ} (hinit : P init) :
    ReadAgrees lz.toks (walkFrom lz first f init) (lz.walkFrom first f init) P := by
  have hle : first / checkpointEvery * checkpointEvery ≤ first := div_mul_le_self _ _
  have hmax := hlz.lt_usizeMax hfirst
  have hstart : ReadAgrees lz.toks (blockStart lz (first / checkpointEvery))
      (lz.blockStart (first / checkpointEvery)) Anything := .ite (fun _ => returns) fun h =>
      agrees_seek hlz hfirst (pos_of_ne_zero h)
  refine .bind hstart fun prev _ => .checked (mul_eq (by omega)) ?_
  exact agrees_tokensFromGo hlz hf first _ _ prev hinit (by omega)

theorem agrees_tokensFromWhile (first : Nat) {init : σ} (hinit : P init) :
    Agrees (tokensFromWhile lz first f init) (lz.tokensFromWhile first f init) P := by
  unfold tokensFromWhile Lazy.tokensFromWhile
  split
  · exact .ok hinit
  · next h =>
    refine .bind (agrees_walkFrom hlz hf (Nat.lt_of_not_le h) hinit ⟨lz.toks, 0⟩
      ⟨rfl, Nat.zero_le _⟩) ?_
    rintro ⟨st, c⟩ - ⟨-, hst⟩
    exact .ok hst

end

theorem agrees_decode {b : List UInt8} (hb : b.length ≤ isizeMax) :
    Agrees (decode false b) (Codec.decode b) fun s => EarlierParents s.symbols ∧ ∀ t ∈ s.tokens,
    ParentBelow s.symbols.length t.parent := by
  refine .bind (agrees_decodeLazy hb) fun lz _ hlz => .bind (agrees_symbols hlz) ?_
  rintro syms - ⟨hlen, hsyms⟩
  have hin := hlz.records
  refine .checked (withCapacity_eq (by omega)) ?_
  have hkeep : ∀ (ord : Nat) (t : TokRec) (ts : List TokRec),
      (∀ u ∈ ts, ParentBelow lz.nsym u.parent) → ParentBelow lz.nsym t.parent → ∀ u ∈ ts ++ [t],
      ParentBelow lz.nsym u.parent := by
    intro ord t ts hts ht u hu
    rcases mem_append.mp hu with hu | hu
    · exact hts u hu
    · rw [mem_singleton.mp hu]
      exact ht
  refine .bind (agrees_tokens hlz hkeep (by simp)) fun ts _ hts =>
    .checked (failIf_of_not (by simp)) (.ok ⟨hsyms, ?_⟩)
  rw [hlen]
  exact hts

theorem decode_debug (b : List UInt8) :
    decode true b = decode false b ∨ decode true b = .error stale := by
  unfold decode
  cases decodeLazy b with
  | error e => exact .inl rfl
  | ok lz =>
    cases hs : symbols b.length lz with
    | error e => exact .inl (by simp only [ok_bind, hs]; rfl)
    | ok syms =>
      simp only [ok_bind, hs]
      cases withCapacity b.length lz.ntok with
      | error e => exact .inl rfl
      | ok _ =>
        simp only [ok_bind]
        cases tokens lz (fun _ t (ts : List TokRec) => (ts ++ [t], true)) [] with
        | error e => exact .inl rfl
        | ok toks =>
          simp only [ok_bind, Bool.false_and, Bool.true_and]
          by_cases hd : (lz.rangesDense && rangesDiffer syms toks) = true
          · exact .inr (by simp [failIf, hd])
          · exact .inl (by simp [failIf, hd])

end Machine

theorem hostile_bytes (b : Slice) :
    OkOrCorrupt (Machine.decodeLazy b.1)
      (fun lz =>
        OkOrCorrupt (Machine.symbols b.1.length lz)
          (fun syms => syms.length = lz.nsym ∧ EarlierParents syms) ∧
        ∀ {σ : Type} (f : Visitor σ) (P : σ → Prop),
          (∀ ord t st, P st → ParentBelow lz.nsym t.parent → P (f ord t st).1) →
          ∀ init, P init →
            OkOrCorrupt (Machine.tokens lz f init) P ∧
              (∀ ords, OkOrCorrupt (Machine.tokensAtWhile lz ords f init) P) ∧
              ∀ first, OkOrCorrupt (Machine.tokensFromWhile lz first f init) P) ∧
      OkOrCorrupt (Machine.decode false b.1)
        (fun s => EarlierParents s.symbols ∧
          ∀ t ∈ s.tokens, ParentBelow s.symbols.length t.parent) ∧
      (Machine.decode true b.1 = Machine.decode false b.1 ∨
        Machine.decode true b.1 = .error Machine.stale) := by
  refine ⟨?_, (Machine.agrees_decode b.2).okOrCorrupt, Machine.decode_debug b.1⟩
  refine Agrees.okOrCorrupt ((Machine.agrees_decodeLazy b.2).mono fun lz hlz => ⟨?_, ?_⟩)
  · exact (Machine.agrees_symbols hlz).okOrCorrupt
  · intro σ f P hf init hinit
    exact ⟨(Machine.agrees_tokens hlz hf hinit).okOrCorrupt,
      fun ords => (Machine.agrees_tokensAtWhile hlz hf ords hinit).okOrCorrupt,
      fun first => (Machine.agrees_tokensFromWhile hlz hf first hinit).okOrCorrupt⟩

def staleBytes : Slice := ⟨[3, 1, 0, 12, 1, 0, 0, 0, 0, 0, 0, 0, 0, 0, 0, 1, 0], by simp [isizeMax]⟩

theorem hostile_bytes_asserted : ¬OkOrCorrupt (Machine.decode true staleBytes.1) fun _ => True := by
  intro h
  have hstale : Machine.decode true staleBytes.1 = .error Machine.stale := by decide +kernel
  exact Bool.false_ne_true (h.2 _ hstale)

def nestedBytes : Slice :=
  ⟨[3, 2, 1, 22, 0, 0, 0, 0, 0, 0, 0, 0, 0, 0, 0, 0, 0, 0, 0, 1, 0, 0, 0, 0, 0, 0, 0, 0, 0, 2, 0, 0,
    0, 0, 0, 0], by simp [isizeMax]⟩

def nestedStream : Stream :=
  ⟨[⟨0, .module, none, none, zero, none, none⟩, ⟨0, .module, none, some 0, zero, none, none⟩],
    [⟨0, .identifier, some 1, zero⟩]⟩

theorem hostile_bytes_nested : Machine.decode false nestedBytes.1 = .ok nestedStream ∧
    EarlierParents nestedStream.symbols ∧ ∀ t ∈ nestedStream.tokens,
    ParentBelow nestedStream.symbols.length t.parent := by
  have hs : Machine.decode false nestedBytes.1 = .ok nestedStream := by decide +kernel
  exact ⟨hs, (hostile_bytes nestedBytes).2.1.1 _ hs⟩

end Codec
end MemoryGraph
