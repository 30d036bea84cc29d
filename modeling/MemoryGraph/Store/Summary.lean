import MemoryGraph.Lib.Counting
import MemoryGraph.Store.Counted

/-! What a `RepoInfo` says: how often each field occurs in the files of a repo. Two infos with the
same summary are equal. -/

namespace MemoryGraph
open Lib Codec

inductive Part
  | files | symbols | tokens
  | kind (label : String)
deriving DecidableEq

inductive Field
  | encoding (name : String)
  | lossy
  | tokenClass (name : String)
  | language (name : String) (part : Part)
deriving DecidableEq

def Field.key (org repo : String) : Field → List String
  | encoding e => ["e", org, repo, e]
  | lossy => ["l", org, repo]
  | tokenClass c => ["c", org, repo, c]
  | language l .files => ["f", org, repo, l]
  | language l .symbols => ["s", org, repo, l]
  | language l .tokens => ["t", org, repo, l]
  | language l (.kind k) => ["k", org, repo, l, k]

theorem Field.key_inj {o r o' r' : String} {a b : Field} (h : a.key o r = b.key o' r') :
    o = o' ∧ r = r' ∧ a = b := by
  rcases a with e | _ | c | ⟨l, _ | _ | _ | k⟩ <;> rcases b with e' | _ | c' | ⟨l',
    _ | _ | _ | k'⟩ <;>
    simp_all [Field.key]

theorem Field.key_cons (o r : String) (a : Field) :
    ∃ tag rest, a.key o r = tag :: o :: r :: rest ∧ NulFree tag ∧ tag ≠ "r" := by
  rcases a with e | _ | c | ⟨l, _ | _ | _ | k⟩ <;> exact ⟨_, _, rfl, by decide, by decide⟩

structure LanguageInfo.Summarises (l : LanguageInfo) (c : Part → Nat) : Prop where
  files : l.files = c .files
  symbols : l.symbols = c .symbols
  tokens : l.tokens = c .tokens
  kinds : l.symbolKinds.Counts (fun k => c (.kind k))

def LanguageRow (row : Option LanguageInfo) (c : Part → Nat) : Prop :=
  match row with
  | none => ∀ p, c p = 0
  | some l => l.Summarises c ∧ ∃ p, c p ≠ 0

def fileSum (languages : Table String LanguageInfo) : Int :=
  (languages.rows.map (fun r => (r.2.files : Int))).sum

structure RepoInfo.Summarises (i : RepoInfo) (c : Field → Nat) : Prop where
  files : (i.files : Int) = fileSum i.languages
  lossy : i.lossy = c .lossy
  encodings : i.encodings.Counts (fun e => c (.encoding e))
  classes : i.tokenClasses.Counts (fun k => c (.tokenClass k))
  languages : ∀ l, LanguageRow (i.languages.get l) (fun p => c (.language l p))

theorem LanguageInfo.Summarises.unique {l m : LanguageInfo} {c : Part → Nat} (hl : l.Summarises c)
    (hm : m.Summarises c) : l = m := by
  obtain ⟨f, s, t, k⟩ := l
  obtain ⟨f', s', t', k'⟩ := m
  obtain rfl : f = f' := hl.files.trans hm.files.symm
  obtain rfl : s = s' := hl.symbols.trans hm.symbols.symm
  obtain rfl : t = t' := hl.tokens.trans hm.tokens.symm
  obtain rfl : k = k' := hl.kinds.unique hm.kinds
  rfl

theorem LanguageRow.unique {x y : Option LanguageInfo} {c : Part → Nat} (hx : LanguageRow x c)
    (hy : LanguageRow y c) : x = y := by
  cases x with
  | none =>
    cases y with
    | none => rfl
    | some m => exact absurd (hy.2.elim fun p hp => hp (hx p)) not_false
  | some l =>
    cases y with
    | none => exact absurd (hx.2.elim fun p hp => hp (hy p)) not_false
    | some m => exact congrArg some (hx.1.unique hy.1)

theorem LanguageRow.getD {x : Option LanguageInfo} {c : Part → Nat} (h : LanguageRow x c) :
    (x.getD LanguageInfo.new).Summarises c := by
  cases x with
  | none =>
    exact ⟨(h _).symm, (h _).symm, (h _).symm, Table.counts_empty.congr fun k => h (.kind k)⟩
  | some l => exact h.1

structure InfoOf (org repo : String) (c : Field → Nat) (i : RepoInfo) : Prop where
  org : i.org = org
  repo : i.repo = repo
  openBatch : i.openBatch = false
  counts : i.Summarises c

theorem InfoOf.unique {org repo : String} {c : Field → Nat} {i j : RepoInfo}
    (hi : InfoOf org repo c i) (hj : InfoOf org repo c j) : i = j := by
  have hlang : i.languages = j.languages :=
    Table.ext fun l => (hi.counts.languages l).unique (hj.counts.languages l)
  have hfiles : i.files = j.files := by
    have h := hi.counts.files.trans (hlang ▸ hj.counts.files.symm)
    exact_mod_cast h
  have hlossy := hi.counts.lossy.trans hj.counts.lossy.symm
  have henc := hi.counts.encodings.unique hj.counts.encodings
  have hcls := hi.counts.classes.unique hj.counts.classes
  have hopen := hi.openBatch.trans hj.openBatch.symm
  have horg := hi.org.trans hj.org.symm
  have hrepo := hi.repo.trans hj.repo.symm
  cases i
  cases j
  simp_all

theorem infoOf_new (org repo : String) : InfoOf org repo (fun _ => 0) (RepoInfo.new org repo) :=
  ⟨rfl, rfl, rfl, rfl, rfl, Table.counts_empty, Table.counts_empty, fun _ _ => rfl⟩

def Field.plus (c : Field → Nat) (a : Field) (n : Nat) : Field → Nat :=
  fun b => c b + if b = a then n else 0

theorem Field.plus_self (c : Field → Nat) (a : Field) (n : Nat) : a.plus c n a = c a + n := by
  rw [Field.plus, if_pos rfl]

theorem Field.plus_of_ne (c : Field → Nat) {a b : Field} (n : Nat) (h : b ≠ a) :
    a.plus c n b = c b := by
  rw [Field.plus, if_neg h, add_zero]

theorem fileSum_onLanguage {t : Table String LanguageInfo} {lang : String}
    {f : LanguageInfo → LanguageInfo} {n : Nat}
    (hf : (f ((t.get lang).getD LanguageInfo.new)).files =
      ((t.get lang).getD LanguageInfo.new).files + n) :
    fileSum (t.alter lang (fun l => f (l.getD LanguageInfo.new))) = fileSum t + n := by
  rw [fileSum, Table.alter, Table.sum_rows_insert, hf]
  cases t.get lang with
  | none =>
    simp only [Option.elim_none, Option.getD_none, LanguageInfo.new, fileSum]
    push_cast
    ring
  | some l =>
    simp only [Option.elim_some, Option.getD_some, fileSum]
    push_cast
    ring

theorem languageRow_onLanguage {t : Table String LanguageInfo} {c c' : String → Part → Nat}
    {lang : String} {f : LanguageInfo → LanguageInfo} (h : ∀ l, LanguageRow (t.get l) (c l))
    (hlang : (f ((t.get lang).getD LanguageInfo.new)).Summarises (c' lang) ∧ ∃ p, c' lang p ≠ 0)
    (hother : ∀ l, l ≠ lang → ∀ p, c' l p = c l p) (l : String) :
    LanguageRow ((t.alter lang (fun l => f (l.getD LanguageInfo.new))).get l) (c' l) := by
  rw [Table.get_alter]
  split_ifs with hl
  · rw [← hl]
    exact hlang
  · rw [funext (hother l (Ne.symm hl))]
    exact h l

end MemoryGraph
