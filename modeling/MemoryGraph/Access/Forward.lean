import MemoryGraph.Access.Check

/-! Calls over two hops: a node that forwards a call sends the cluster secret and the role it
granted, which the next node trusts with the secret only. -/

namespace MemoryGraph.Access
open Lib Option
variable {headers : Headers} {c : Caller} {path : String}

section
variable {D : Type} [DecidableEq D] (digest : Bytes → D)

def SecretSet.ofLines (first : Bytes) (rest : List Bytes) : SecretSet D :=
  ⟨(first :: rest).map digest, first⟩

def Auth.secretHeader (auth : Auth D) : Option Bytes := auth.secret.bind fun s => bearerValue s.send

structure ForwardHeaders (D : Type) where
  me : Nat
  auth : Auth D
  nodeRole : Option Role

/-- The headers of a forwarded request, made in the scope of `caller`; the request itself is new. -/
def ForwardHeaders.call (f : ForwardHeaders D) (caller : Option Caller) : Headers :=
  let role := match caller with
    | some c => c.role
    | none => f.nodeRole
  let tokenId := caller.bind fun c => match c.kind with
    | .token id _ => toStr id
    | _ => none
  ("mg-protocol-version", utf8 "1") :: (forwardedByHeader, utf8 (toString f.me)) ::
    match f.auth.secretHeader with
    | none => []
    | some v =>
      (authorization, v) :: ((role.map fun r => (forwardedRoleHeader, utf8 r.asStr)).toList ++
        (tokenId.map fun id => (forwardedTokenIdHeader, id)).toList)

def wasForwarded (headers : Headers) : Bool := (headers.lookup forwardedByHeader).isSome

def forwardedMethods : List String :=
  ["/memory_graph.v1.Write/Index", "/memory_graph.v1.Write/IndexFile",
    "/memory_graph.v1.Write/IngestExtraction", "/memory_graph.v1.Write/Prune",
    "/memory_graph.v1.Write/Vacuum", "/memory_graph.v1.Store/ExtractorGaps",
    "/memory_graph.v1.Admin/AddLearner", "/memory_graph.v1.Admin/Promote",
    "/memory_graph.v1.Admin/Remove", "/memory_graph.v1.Admin/TransferLeader",
    "/memory_graph.v1.Admin/Join", "/memory_graph.v1.Admin/UpdateAdvertise",
    "/memory_graph.v1.Admin/UploadSnapshot"]

def nodeHeaders (auth : Auth D) (forwardedBy : Option Nat) : Headers :=
  ("mg-protocol-version", utf8 "1") ::
    ((auth.secretHeader.map fun v => (authorization, v)).toList ++
      match forwardedBy with
      | none => []
      | some me =>
      [(forwardedByHeader, utf8 (toString me)), (forwardedRoleHeader, utf8 Role.write.asStr)])

/-- The methods whose handler asks the server at an address who it is (`probe_node`). -/
def probingMethods : List String :=
  ["/memory_graph.v1.Admin/AddLearner", "/memory_graph.v1.Admin/Promote",
    "/memory_graph.v1.Admin/Join", "/memory_graph.v1.Admin/UpdateAdvertise"]

def status : String := "/memory_graph.v1.Admin/Status"
def readIndex : String := "/memory_graph.v1.Admin/ReadIndex"
def transferLeader : String := "/memory_graph.v1.Admin/TransferLeader"
def triggerElect : String := "/memory_graph.v1.Admin/TriggerElect"

structure Origin (D : Type) where
  tokens : List (TokenEntry D)
  bearer : Option Bytes
  now : Nat

structure Handler (D : Type) where
  node : Nat
  path : String
  caller : Caller
  forwarded : Bool
  origin : Origin D

/-- The calls a handler makes with the headers of a forward: its own request, to the leader;
the read barrier of a read; the call of a transfer to its target. -/
inductive Sends : Handler D → String → Option Role → Prop
  | route {h : Handler D} : h.path ∈ forwardedMethods → h.forwarded = false → Sends h h.path none
  | barrier {h : Handler D} : need h.path = some .read → Sends h readIndex (some .read)
  | elect {h : Handler D} : h.path = transferLeader → Sends h triggerElect (some .write)

structure Cluster (D : Type) where
  auths : Nat → Auth D
  ran : List (Handler D)

end

/-- A hash without collisions on the values that occur, and the values of the cluster secret. -/
structure Secrets (D : Type) where
  digest : Bytes → D
  known : Set Bytes
  injOn : Set.InjOn digest known
  values : Set Bytes
  subset : values ⊆ known

variable {D : Type} [DecidableEq D] (S : Secrets D)

def On (a : Auth D) : Prop :=
  ∃ tokens first rest, a = ⟨some tokens, some (SecretSet.ofLines S.digest first rest)⟩ ∧
    ∀ v ∈ first :: rest, v ∈ S.values ∧ checkFormat v = some .secret

/-- The request does not carry the secret; what it carries is among the known values. -/
def Outsider (headers : Headers) : Prop :=
  ∀ raw kind value, headers.lookup authorization = some raw → parseBearer raw = .ok (kind, value) →
    value ∈ S.known ∧ value ∉ S.values

inductive Step : Cluster D → Cluster D → Prop
  | reload {s : Cluster D} {n : Nat} {a : Auth D} :
  On S a → Step s { s with auths := Function.update s.auths n a }
  -- a caller that does not know the secret calls a node, which lets the handler run
  | call {s : Cluster D} {n conn now : Nat} {path : String} {headers : Headers} {c : Caller} :
      Outsider S headers → check S.digest (s.auths n) path headers conn now = .ok c →
      Step s { s with ran := ⟨n, path, c, wasForwarded headers,
        ⟨(s.auths n).tokens.getD [], headers.lookup authorization, now⟩⟩ :: s.ran }
  -- a handler calls another node, in the scope of its caller or from a task that lost it
  | forward {s : Cluster D} {h : Handler D} {m conn now : Nat} {path : String}
      {nodeRole : Option Role} {inScope : Bool} {c : Caller} : h ∈ s.ran → Sends h path nodeRole →
      check S.digest (s.auths m) path
        (ForwardHeaders.call ⟨h.node, s.auths h.node, nodeRole⟩ (if inScope then some h.caller
        else none)) conn now = .ok c →
      Step s { s with ran := ⟨m, path, c, true, h.origin⟩ :: s.ran }
  | probe {s : Cluster D} {h : Handler D} {m conn now : Nat} {c : Caller} :
      h ∈ s.ran → h.path ∈ probingMethods →
      check S.digest (s.auths m) status (nodeHeaders (s.auths h.node) none) conn now = .ok c →
      Step s { s with ran := ⟨m, status, c, false, h.origin⟩ :: s.ran }

def Reached (s : Cluster D) : Prop :=
  ∃ auths : Nat → Auth D, (∀ n, On S (auths n)) ∧ Relation.ReflTransGen (Step S) ⟨auths, []⟩ s

/-- The caller presented the token of `e`, known and unexpired at the node it called. -/
def Presented (o : Origin D) (e : TokenEntry D) : Prop :=
  ∃ raw value, o.bearer = some raw ∧ parseBearer raw = .ok (.token, value) ∧ e ∈ o.tokens ∧
    e.digest = S.digest value ∧ ∀ t, e.expires = some t → o.now < t

def Need.role : Need → Option Role
  | .read => some .read
  | .write => some .write
  | .anyone | .node => none

def sentRole (nodeRole : Option Role) : Option Caller → Option Role
  | some c => c.role
  | none => nodeRole

theorem splitOnce_bearer (v : Bytes) :
    splitOnce (utf8 "Bearer " ++ v) = some (utf8 "Bearer", v) := by
  show splitOnce (66 :: 101 :: 97 :: 114 :: 101 :: 114 :: 32 :: v) = _
  rw [splitOnce, if_pos (by simp)]
  rfl

theorem parseBearer_bearer {v value : Bytes} {kind : CredKind}
    (h : parseBearer (utf8 "Bearer " ++ v) = .ok (kind, value)) :
    value = v ∧ checkFormat v = some kind := by
  rw [parseBearer, splitOnce_bearer] at h
  split_ifs at h
  dsimp only at h
  split_ifs at h
  split at h
  · cases h
  · next k hk =>
    cases h
    exact ⟨rfl, hk⟩

def sentTokenId (caller : Option Caller) : Option Bytes :=
  caller.bind fun c => match c.kind with
    | .token id _ => toStr id
    | _ => none

omit [DecidableEq D] in
theorem ForwardHeaders.call_eq (f : ForwardHeaders D) (caller : Option Caller) :
    f.call caller = ("mg-protocol-version", utf8 "1") ::
    (forwardedByHeader, utf8 (toString f.me)) ::
      match f.auth.secretHeader with
      | none => []
      | some v => (authorization, v) ::
        (((sentRole f.nodeRole caller).map fun r => (forwardedRoleHeader, utf8 r.asStr)).toList ++
          ((sentTokenId caller).map fun id => (forwardedTokenIdHeader, id)).toList) := by
  cases caller <;> rfl

omit [DecidableEq D] in
theorem lookup_authorization {f : ForwardHeaders D} {caller : Option Caller} {raw : Bytes}
    (h : (f.call caller).lookup authorization = some raw) : f.auth.secretHeader = some raw := by
  rw [f.call_eq] at h
  cases hs : f.auth.secretHeader with
  | none =>
    rw [hs] at h
    cases h
  | some v =>
    rw [hs] at h
    exact h

omit [DecidableEq D] in
theorem sentRole_of_header {f : ForwardHeaders D} {caller : Option Caller} {r : Role}
    (h : (header (f.call caller) forwardedRoleHeader).bind Role.parse = some r) :
    sentRole f.nodeRole caller = some r := by
  rw [f.call_eq] at h
  cases hs : f.auth.secretHeader with
  | none =>
    rw [hs] at h
    cases h
  | some v =>
    rw [hs] at h
    cases hr : sentRole f.nodeRole caller with
    | none =>
      rw [hr] at h
      cases hid : sentTokenId caller with
      | none =>
        rw [hid] at h
        cases h
      | some id =>
        rw [hid] at h
        cases h
    | some r' =>
      rw [hr] at h
      cases r' with
      | read => exact h
      | write => exact h

variable {S} {s : Cluster D}

theorem credential_node {a b : Auth D} (ha : On S a)
    (hheaders : ∀ raw, headers.lookup authorization = some raw → a.secretHeader = some raw)
    {now : Nat} {tokens : List (TokenEntry D)} {e : TokenEntry D} :
    credential S.digest (headers.lookup authorization) tokens b.secret now ≠ .token e := by
  intro h
  obtain ⟨raw, value, hraw, hparse, -⟩ := credential_eq_token S.digest h
  obtain ⟨toks, first, rest, rfl, hlines⟩ := ha
  obtain ⟨kind, -, rfl⟩ := map_eq_some_iff.mp (hheaders raw hraw)
  have hformat : checkFormat first = some .token := (parseBearer_bearer hparse).2
  rw [(hlines first (.head _)).2] at hformat
  cases hformat

theorem credential_outsider {a : Auth D} (ha : On S a) (hout : Outsider S headers)
    {tokens : List (TokenEntry D)} {now : Nat} :
    credential S.digest (headers.lookup authorization) tokens a.secret now ≠ .secret := by
  intro h
  obtain ⟨raw, value, sec, hraw, hparse, hsec, hmem⟩ := credential_eq_secret S.digest h
  obtain ⟨toks, first, rest, rfl, hlines⟩ := ha
  cases hsec
  obtain ⟨v, hv, heq⟩ := List.mem_map.mp hmem
  obtain ⟨hknown, hnot⟩ := hout raw _ value hraw hparse
  have hval := (hlines v hv).1
  -- equal digests of known values
  exact hnot (S.injOn (S.subset hval) hknown heq ▸ hval)

theorem check_eq_ok {a : Auth D} (ha : On S a) {conn now : Nat}
    (h : check S.digest a path headers conn now = .ok c) :
    ∃ tokens k, a.tokens = some tokens ∧ need path = some k ∧
      (k = .node → credential S.digest (headers.lookup authorization) tokens a.secret now =
      .secret) ∧ ∀ required, k.role = some required →
        checkRole path headers conn k required
          (credential S.digest (headers.lookup authorization) tokens a.secret now) = .ok c := by
  obtain ⟨tokens, first, rest, rfl, -⟩ := ha
  rw [check] at h
  cases hk : need path with
  | none =>
    rw [hk] at h
    cases h
  | some k =>
    rw [hk] at h
    refine ⟨tokens, k, rfl, rfl, fun hnode => ?_, fun required hreq => ?_⟩
    · subst hnode
      dsimp only at h
      split at h
      · assumption
      · cases h
      · cases h
    · cases k with
      | anyone => cases hreq
      | node => cases hreq
      | read =>
        cases hreq
        exact h
      | write =>
        cases hreq
        exact h

variable (S) in
/-- The handler ran for a token presented to the node called, whose role covers the method's
need and the role the handler acts with. -/
def Authorized (x : Handler D) : Prop :=
  (∃ k, need x.path = some k ∧ k ≠ .node) ∧ ∀ k required, need x.path = some k →
    k.role = some required → ∃ e, Presented S x.origin e ∧ e.role.covers required = true ∧
    ∀ r, x.caller.role = some r → e.role.covers r = true

theorem authorized_call {a : Auth D} (ha : On S a) {n conn now : Nat}
    {forwarded : Bool} (hout : Outsider S headers)
    (h : check S.digest a path headers conn now = .ok c) :
    Authorized S ⟨n, path, c, forwarded,
      ⟨a.tokens.getD [], headers.lookup authorization, now⟩⟩ := by
  obtain ⟨tokens, k, htokens, hk, hnode, hrole⟩ := check_eq_ok ha h
  refine ⟨⟨k, hk, fun hn => credential_outsider ha hout (hnode hn)⟩, fun k' required hk' hreq => ?_⟩
  obtain rfl := mem_unique hk hk'
  rcases checkRole_eq_ok (hrole required hreq) with ⟨e, hcred, hcov, hcaller⟩ | ⟨hcred, -⟩
  · refine ⟨e, ?_, hcov, fun r hr => ?_⟩
    · rw [htokens]
      exact credential_eq_token S.digest hcred
    · rw [hcaller] at hr
      exact some.inj hr ▸ e.role.covers_refl
  · exact absurd hcred (credential_outsider ha hout)

theorem authorized_forward {a b : Auth D} (ha : On S a) (hb : On S b) {x : Handler D}
    (hx : Authorized S x) {m conn now : Nat} {nodeRole : Option Role} {inScope : Bool} {k₀ : Need}
    {required₀ : Role} (hk₀ : need x.path = some k₀) (hreq₀ : k₀.role = some required₀)
    (hneed : ∀ k, need path = some k → k.role = some required₀)
    (hsent : ∀ r, nodeRole = some r → r = required₀)
    (h : check S.digest b path
      (ForwardHeaders.call ⟨x.node, a, nodeRole⟩ (if inScope then some x.caller else none))
      conn now = .ok c) : Authorized S ⟨m, path, c, true, x.origin⟩ := by
  obtain ⟨tokens, k, -, hk, -, hrole⟩ := check_eq_ok hb h
  have hreq := hneed k hk
  obtain ⟨e, hpres, hcov, hacts⟩ := hx.2 k₀ required₀ hk₀ hreq₀
  refine ⟨⟨k, hk, fun hn => ?_⟩, fun k' required hk' hreq' => ?_⟩
  · subst hn
    cases hreq
  · obtain rfl := mem_unique hk hk'
    obtain rfl := mem_unique hreq hreq'
    refine ⟨e, hpres, hcov, fun r hr => ?_⟩
    rcases checkRole_eq_ok (hrole _ hreq) with ⟨e', hcred, -⟩ | ⟨-, hnone | ⟨r', hheader, hcaller⟩⟩
    · exact absurd hcred (credential_node ha fun _ => lookup_authorization)
    · rw [hnone] at hr
      cases hr
    · rw [hcaller] at hr
      obtain rfl := some.inj hr
      have hsentRole := sentRole_of_header hheader
      cases inScope with
      | true => exact hacts r' hsentRole
      | false =>
        rw [hsent r' hsentRole]
        exact hcov

theorem authorized_probe {a b : Auth D} (ha : On S a) (hb : On S b) {x : Handler D}
    (hx : Authorized S x) (hwrite : need x.path = some .write) {m conn now : Nat}
    (h : check S.digest b status (nodeHeaders a none) conn now = .ok c) :
    Authorized S ⟨m, status, c, false, x.origin⟩ := by
  obtain ⟨tokens, k, -, hk, -, hrole⟩ := check_eq_ok hb h
  have hread : need status = some .read := by decide
  obtain rfl := mem_unique hread hk
  obtain ⟨e, hpres, hcov, -⟩ := hx.2 .write .write hwrite rfl
  have hsecret : ∀ raw, (nodeHeaders a none).lookup authorization = some raw →
      a.secretHeader = some raw := by
    intro raw hraw
    rw [nodeHeaders, List.append_nil] at hraw
    cases hs : a.secretHeader with
    | none =>
      rw [hs] at hraw
      cases hraw
    | some v =>
      rw [hs] at hraw
      exact hraw
  have hnone : (header (nodeHeaders a none) forwardedRoleHeader).bind Role.parse = none := by
    rw [nodeHeaders, List.append_nil]
    cases a.secretHeader <;> rfl
  refine ⟨⟨.read, hread, by decide⟩, fun k required hk' hreq => ⟨e, hpres, ?_, fun r hr => ?_⟩⟩
  · exact Role.covers_trans hcov rfl
  · rcases checkRole_eq_ok (hrole .read rfl) with ⟨e', hcred, -⟩ | ⟨-, hc | ⟨r', hheader, -⟩⟩
    · exact absurd hcred (credential_node ha hsecret)
    · rw [hc] at hr
      cases hr
    · rw [hnone] at hheader
      cases hheader

theorem need_of_forwarded (h : path ∈ forwardedMethods) : need path ≠ some .anyone := by
  have hall : ∀ p ∈ forwardedMethods, need p ≠ some .anyone := by decide
  exact hall path h

theorem step_authorized {t : Cluster D} (hon : ∀ n, On S (s.auths n))
    (hran : ∀ x ∈ s.ran, Authorized S x) (hs : Step S s t) :
    (∀ n, On S (t.auths n)) ∧ ∀ x ∈ t.ran, Authorized S x := by
  cases hs with
  | @reload n a ha =>
    refine ⟨fun m => ?_, hran⟩
    show On S (Function.update s.auths n a m)
    by_cases hm : m = n
    · subst hm
      rwa [Function.update_self]
    · rw [Function.update_of_ne hm]
      exact hon m
  | call hout hc =>
    refine ⟨hon, List.forall_mem_cons.mpr ⟨?_, hran⟩⟩
    exact authorized_call (hon _) hout hc
  | @forward h m conn now path nodeRole inScope c hmem hsends hc =>
    refine ⟨hon, List.forall_mem_cons.mpr ⟨?_, hran⟩⟩
    have hx := hran h hmem
    cases hsends with
    | route hpath _ =>
      obtain ⟨k, hk, hnode⟩ := hx.1
      have hrole : ∃ required, k.role = some required := by
        cases k with
        | anyone => exact absurd hk (need_of_forwarded hpath)
        | node => exact absurd rfl hnode
        | read => exact ⟨_, rfl⟩
        | write => exact ⟨_, rfl⟩
      obtain ⟨required, hreq⟩ := hrole
      refine authorized_forward (hon _) (hon _) hx hk hreq (fun k' hk' => ?_)
        (fun r hr => by cases hr) hc
      rwa [← mem_unique hk hk']
    | barrier hread =>
      have hneed : need readIndex = some .read := by decide
      refine authorized_forward (hon _) (hon _) hx hread rfl (fun k' hk' => ?_) (fun r hr => ?_) hc
      · rw [← mem_unique hneed hk']
        rfl
      · exact (some.inj hr).symm
    | elect hpath =>
      have hfrom : need h.path = some .write := by
        rw [hpath]
        decide
      have hneed : need triggerElect = some .write := by decide
      refine authorized_forward (hon _) (hon _) hx hfrom rfl (fun k' hk' => ?_) (fun r hr => ?_) hc
      · rw [← mem_unique hneed hk']
        rfl
      · exact (some.inj hr).symm
  | @probe h m conn now c hmem hpath hc =>
    refine ⟨hon, List.forall_mem_cons.mpr ⟨?_, hran⟩⟩
    have hx := hran h hmem
    have hwrite : need h.path = some .write := by
      have hall : ∀ p ∈ probingMethods, need p = some .write ∨ need p = some .node := by decide
      obtain ⟨k, hk, hnode⟩ := hx.1
      rcases hall h.path hpath with hw | hn
      · exact hw
      · exact absurd (mem_unique hk hn) hnode
    exact authorized_probe (hon _) (hon _) hx hwrite hc

/-- In every cluster reached, a handler of a method that needs a role ran for a caller that
presented to the node it called a known, unexpired token whose role covers the need and the role
the handler acts with; and no handler of a node-only method ran. -/
theorem handlers_authorized (h : Reached S s) : ∀ x ∈ s.ran, need x.path ≠ some .node ∧
    ∀ k required, need x.path = some k → k.role = some required →
      ∃ e, Presented S x.origin e ∧ e.role.covers required = true ∧
        ∀ r, x.caller.role = some r → e.role.covers r = true := by
  obtain ⟨auths, hon, hsteps⟩ := h
  have hinv : (∀ n, On S (s.auths n)) ∧ ∀ x ∈ s.ran, Authorized S x := by
    induction hsteps with
    | refl => exact ⟨hon, fun x hx => (nomatch hx)⟩
    | tail _ hs ih => exact step_authorized ih.1 ih.2 hs
  intro x hx
  obtain ⟨⟨k, hk, hnode⟩, hauth⟩ := hinv.2 x hx
  refine ⟨fun hn => hnode ?_, hauth⟩
  exact Option.some.inj (hk.symm.trans hn)

def sampleSecret : Bytes := utf8 "mgc_" ++ List.replicate 43 65
def sampleToken : Bytes := utf8 "mgt_" ++ List.replicate 43 66

def sampleSecrets : Secrets Bytes where
  digest v := v
  known := Set.univ
  injOn := fun _ _ _ _ h => h
  values := {sampleSecret}
  subset := Set.subset_univ _

def sampleAuth : Auth Bytes :=
  ⟨some [⟨utf8 "ci", .write, sampleToken, some 100⟩],
    some (SecretSet.ofLines sampleSecrets.digest sampleSecret [])⟩

def sampleHeaders : Headers :=
  [(forwardedRoleHeader, utf8 "write"), (authorization, utf8 "Bearer " ++ sampleToken)]

def sampleHandler (node : Nat) (caller : Caller) (forwarded : Bool) : Handler Bytes :=
  ⟨node, "/memory_graph.v1.Write/Index", caller, forwarded,
    ⟨sampleAuth.tokens.getD [], sampleHeaders.lookup authorization, 50⟩⟩

theorem handlers_authorized_forwarded :
    let x := sampleHandler 2 ⟨.node (some .write) (some (utf8 "ci")), 9⟩ true
    (∃ s, Reached sampleSecrets s ∧ x ∈ s.ran) ∧ need x.path = some .write ∧
      ∃ e, Presented sampleSecrets x.origin e ∧ e.role.covers .write = true := by
  have hon : On sampleSecrets sampleAuth := by
    refine ⟨_, sampleSecret, [], rfl, fun v hv => ?_⟩
    obtain rfl := List.mem_singleton.mp hv
    exact ⟨rfl, by decide⟩
  have hout : Outsider sampleSecrets sampleHeaders := by
    intro raw kind value hraw hparse
    obtain rfl : utf8 "Bearer " ++ sampleToken = raw := Option.some.inj hraw
    obtain rfl := (parseBearer_bearer hparse).1
    exact ⟨trivial, fun h => absurd (Set.mem_singleton_iff.mp h) (by decide)⟩
  have hcall : Step sampleSecrets ⟨fun _ => sampleAuth, []⟩
      ⟨fun _ => sampleAuth, [sampleHandler 1 ⟨.token (utf8 "ci") .write, 3⟩ false]⟩ :=
    @Step.call _ _ _ ⟨fun _ => sampleAuth, []⟩ 1 3 50 "/memory_graph.v1.Write/Index"
      sampleHeaders _ hout rfl
  have hforward : Step sampleSecrets ⟨fun _ =>
      sampleAuth, [sampleHandler 1 ⟨.token (utf8 "ci") .write, 3⟩ false]⟩
      ⟨fun _ => sampleAuth, [sampleHandler 2 ⟨.node (some .write) (some (utf8 "ci")), 9⟩ true,
        sampleHandler 1 ⟨.token (utf8 "ci") .write, 3⟩ false]⟩ :=
    @Step.forward _ _ _ ⟨fun _ =>
      sampleAuth, [sampleHandler 1 ⟨.token (utf8 "ci") .write, 3⟩ false]⟩
      (sampleHandler 1 ⟨.token (utf8 "ci") .write, 3⟩ false) 2 9 60 "/memory_graph.v1.Write/Index"
      none true _ List.mem_cons_self (.route (by decide) rfl) rfl
  have hreached : Reached sampleSecrets _ :=
    ⟨fun _ => sampleAuth, fun _ => hon, (Relation.ReflTransGen.single hcall).tail hforward⟩
  have hneed : need "/memory_graph.v1.Write/Index" = some .write := by decide
  obtain ⟨e, hpres, hcov, -⟩ :=
    (handlers_authorized hreached _ List.mem_cons_self).2 .write .write hneed rfl
  exact ⟨⟨_, hreached, List.mem_cons_self⟩, hneed, e, hpres, hcov⟩

end MemoryGraph.Access
