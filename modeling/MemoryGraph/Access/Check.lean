import MemoryGraph.Lib.Text
import MemoryGraph.Lib.Fallible

/-! The decision on one call: the method's entry in the role table, the bearer credential of
the request, and what the two allow. Header values are bytes. -/

namespace MemoryGraph.Access
open Lib

abbrev Bytes := List UInt8

inductive CredKind
  | token | secret
deriving DecidableEq, Repr

inductive Malformed
  | tooLong | notAscii | scheme | format
deriving DecidableEq, Repr

def tokenStart : Bytes := utf8 "mgt_"
def secretStart : Bytes := utf8 "mgc_"
def bodyLen : Nat := 43
def maxHeaderLen : Nat := 128

def strip {α : Type} [DecidableEq α] (start l : List α) : Option (List α) :=
  if l.take start.length = start then some (l.drop start.length) else none

def isAlphanumeric (b : UInt8) : Bool :=
  (48 ≤ b && b ≤ 57) || (65 ≤ b && b ≤ 90) || (97 ≤ b && b ≤ 122)

def isB64url (b : UInt8) : Bool := isAlphanumeric b || b = 45 || b = 95

def checkBody (kind : CredKind) (rest : Bytes) : Option CredKind :=
  if rest.length = bodyLen && rest.all isB64url then some kind else none

def checkFormat (value : Bytes) : Option CredKind :=
  match strip tokenStart value with
  | some rest => checkBody .token rest
  | none => (strip secretStart value).bind (checkBody .secret)

def toLower (b : UInt8) : UInt8 := if 65 ≤ b && b ≤ 90 then b + 32 else b

def splitOnce (l : Bytes) : Option (Bytes × Bytes) :=
  if (32 : UInt8) ∈ l then
    some (l.takeWhile (fun b => b ≠ 32), (l.dropWhile (fun b => b ≠ 32)).tail)
  else none

def parseBearer (raw : Bytes) : Except Malformed (CredKind × Bytes) :=
  if raw.length > maxHeaderLen then .error .tooLong
  else if !raw.all (fun b => 32 ≤ b && b < 127) then .error .notAscii
  else match splitOnce raw with
    | none => .error .scheme
    | some (scheme, value) =>
      if scheme.map toLower ≠ utf8 "bearer" then .error .scheme
      else match checkFormat value with
        | none => .error .format
        | some kind => .ok (kind, value)

def bearerValue (value : Bytes) : Option Bytes := (checkFormat value).map fun _ =>
    utf8 "Bearer " ++ value

inductive Role
  | read | write
deriving DecidableEq, Repr

namespace Role

def asStr : Role → String
  | .read => "read"
  | .write => "write"

def parse (s : Bytes) : Option Role :=
  if s = utf8 "read" then some .read else if s = utf8 "write" then some .write else none

def covers : Role → Role → Bool
  | .write, _ => true
  | .read, .read => true
  | .read, .write => false

theorem covers_refl (r : Role) : r.covers r = true := by cases r <;> rfl

theorem covers_trans {a b c : Role} (hab : a.covers b = true) (hbc : b.covers c = true) :
    a.covers c = true := by
  cases a with
  | write => rfl
  | read =>
    cases b with
    | read => exact hbc
    | write => cases hab

end Role

inductive Need
  | anyone | read | write | node
deriving DecidableEq, Repr

def store : String := "/memory_graph.v1.Store/"
def write : String := "/memory_graph.v1.Write/"
def admin : String := "/memory_graph.v1.Admin/"
def raft : String := "/memory_graph.v1.Raft/"
def health : String := "/grpc.health.v1.Health/"

def method (service path : String) : Option String :=
  (strip service.toList path.toList).map String.ofList

def storeReads : List String :=
  ["Get", "Parent", "CountNodes", "Roots", "Children", "ChildrenPage", "Descendants",
    "DescendantsPage", "Ancestors", "FileTokens", "Describe", "DescribeByScan", "ExtractorGaps",
    "SearchSymbols", "Search", "OpenSnapshot", "CloseSnapshot", "SnapshotStats"]

def writeWrites : List String := ["Index", "IndexFile", "IngestExtraction", "Prune", "Vacuum"]

def adminReads : List String :=
  ["Status", "Members", "Leader", "SysInfo", "Metrics", "ReadIndex", "ListBackups"]

def adminWrites : List String :=
  ["AddLearner", "Promote", "Remove", "TransferLeader", "TriggerElect", "TriggerSnapshot",
    "UploadSnapshot", "Compact", "Shutdown"]

def need (path : String) : Option Need :=
  match method health path with
  | some m => if m ∈ ["Check", "Watch", "List"] then some .anyone else none
  | none =>
  match method store path with
  | some m => if m = "Hello" then some .anyone else if m ∈ storeReads then some .read else none
  | none =>
  match method write path with
  | some m => if m ∈ writeWrites then some .write else none
  | none =>
  match method admin path with
  | some m =>
    if m ∈ adminReads then some .read
    else if m ∈ adminWrites then some .write
    else if m ∈ ["Join", "UpdateAdvertise"] then some .node
    else none
  | none =>
  match method raft path with
  | some m => if m ∈ ["AppendEntries", "Vote", "InstallSnapshot"] then some .node else none
  | none => none

def secretReads (path : String) : Bool :=
  path = "/memory_graph.v1.Admin/Status" || path = "/memory_graph.v1.Admin/Members"

inductive CallerKind
  | anonymous
  | token (id : Bytes) (role : Role)
  | node (role : Option Role) (forwardedTokenId : Option Bytes)
deriving DecidableEq, Repr

structure Caller where
  kind : CallerKind
  conn : Nat
deriving DecidableEq, Repr

def Caller.role (c : Caller) : Option Role :=
  match c.kind with
  | .anonymous => none
  | .token _ role => some role
  | .node role _ => role

structure TokenEntry (D : Type) where
  id : Bytes
  role : Role
  digest : D
  expires : Option Nat

structure SecretSet (D : Type) where
  digests : List D
  send : Bytes

structure Auth (D : Type) where
  tokens : Option (List (TokenEntry D))
  secret : Option (SecretSet D)

inductive Cred (D : Type)
  | missing | malformed | unknown | expired
  | token (e : TokenEntry D)
  | secret

inductive Reason
  | missing | malformed | unknown | expired | role | nodeOnly | secretDirect | unlisted
  | invalidOnOpen
deriving DecidableEq, Repr

structure Refusal where
  reason : Reason
  required : Need
deriving DecidableEq, Repr

def Refusal.unauth (reason : Reason) : Refusal := ⟨reason, .anyone⟩

def Refusal.denied (reason : Reason) (required : Need) : Refusal := ⟨reason, required⟩

abbrev Headers := List (String × Bytes)

def authorization : String := "authorization"
def forwardedByHeader : String := "mg-forwarded-by"
def forwardedRoleHeader : String := "mg-forwarded-role"
def forwardedTokenIdHeader : String := "mg-forwarded-token-id"

def toStr (v : Bytes) : Option Bytes :=
  if v.all (fun b => b = 9 || (32 ≤ b && b < 127)) then some v else none

def header (headers : Headers) (name : String) : Option Bytes := (headers.lookup name).bind toStr

section
variable {D : Type} [DecidableEq D] (digest : Bytes → D)

/-- The last stored digest equal to `d`: every one is compared. -/
def ctFind (digests : List D) (d : D) : Option Nat :=
  digests.zipIdx.foldl (fun found s => if s.1 = d then some s.2 else found) none

def lookupToken (tokens : List (TokenEntry D)) (d : D) (now : Nat) : Cred D :=
  match (ctFind (tokens.map TokenEntry.digest) d).bind (tokens[·]?) with
  | some e => if e.expires.any (fun t => t ≤ now) then .expired else .token e
  | none => .unknown

def credential (raw : Option Bytes) (tokens : List (TokenEntry D)) (secret : Option (SecretSet D))
    (now : Nat) : Cred D :=
  match raw with
  | none => .missing
  | some raw =>
    match parseBearer raw with
    | .error _ => .malformed
    | .ok (.token, value) => lookupToken tokens (digest value) now
    | .ok (.secret, value) =>
      match secret with
      | some s => if (ctFind s.digests (digest value)).isSome then .secret else .unknown
      | none => .unknown

def unauthorized : Cred D → Refusal
  | .missing => .unauth .missing
  | .malformed => .unauth .malformed
  | .expired => .unauth .expired
  | _ => .unauth .unknown

def checkRole (path : String) (headers : Headers) (conn : Nat) (need : Need) (required : Role) :
    Cred D → Except Refusal Caller
  | .token e =>
    if e.role.covers required then .ok ⟨.token e.id e.role, conn⟩ else .error (.denied .role need)
  | .secret =>
    if need = .read ∧ secretReads path then .ok ⟨.node none none, conn⟩
    else if header headers forwardedByHeader = none then .error (.denied .secretDirect need)
    else match (header headers forwardedRoleHeader).bind Role.parse with
      | some r =>
        if r.covers required then .ok ⟨.node (some r) (header headers forwardedTokenIdHeader), conn⟩
        else .error (.denied .role need)
      | none => .error (.denied .role need)
  | c => .error (unauthorized c)

def check (auth : Auth D) (path : String) (headers : Headers) (conn now : Nat) :
    Except Refusal Caller :=
  match auth.tokens with
  | none => .ok ⟨.anonymous, conn⟩
  | some tokens =>
    match need path with
    | none => .error (.denied .unlisted .anyone)
    | some need =>
      let cred := credential digest (headers.lookup authorization) tokens auth.secret now
      match need with
      | .anyone =>
        .ok ⟨match cred with
          | .token e => .token e.id e.role
          | .secret => .node none none
          | _ => .anonymous, conn⟩
      | .node =>
        match cred with
        | .secret => .ok ⟨.node none none, conn⟩
        | .token _ => .error (.unauth .nodeOnly)
        | c => .error (unauthorized c)
      | .read => checkRole path headers conn .read .read cred
      | .write => checkRole path headers conn .write .write cred

theorem mem_of_foldl_find {l : List (D × Nat)} {d : D} {found : Option Nat} {i : Nat}
    (h : l.foldl (fun found s => if s.1 = d then some s.2 else found) found = some i) :
    found = some i ∨ (d, i) ∈ l := by
  induction l generalizing found with
  | nil => exact Or.inl h
  | cons s l ih =>
    rw [List.foldl_cons] at h
    rcases ih h with hfound | hd
    · split_ifs at hfound with hs
      · cases hfound
        exact Or.inr (hs ▸ (.head _))
      · exact Or.inl hfound
    · exact Or.inr (.tail _ hd)

theorem ctFind_eq_some {digests : List D} {d : D} {i : Nat} (h : ctFind digests d = some i) :
    digests[i]? = some d := by
  rw [ctFind] at h
  rcases mem_of_foldl_find h with hnone | hmem
  · cases hnone
  · exact List.mem_zipIdx_iff_getElem?.mp hmem

theorem lookupToken_eq_token {tokens : List (TokenEntry D)} {d : D} {now : Nat} {e : TokenEntry D}
    (h : lookupToken tokens d now = .token e) :
    e ∈ tokens ∧ e.digest = d ∧ ∀ t, e.expires = some t → now < t := by
  rw [lookupToken] at h
  cases hfind : (ctFind (tokens.map TokenEntry.digest) d).bind (tokens[·]?) with
  | none =>
    rw [hfind] at h
    cases h
  | some e' =>
    rw [hfind] at h
    dsimp only at h
    split_ifs at h with hexp
    cases h
    obtain ⟨i, hi, he⟩ := Option.bind_eq_some_iff.mp hfind
    have hd := ctFind_eq_some hi
    rw [List.getElem?_map, he] at hd
    refine ⟨List.mem_of_getElem? he, Option.some.inj hd, fun t ht => ?_⟩
    rw [ht] at hexp
    simpa using hexp

theorem credential_eq_token {raw : Option Bytes} {tokens : List (TokenEntry D)}
    {secret : Option (SecretSet D)} {now : Nat} {e : TokenEntry D}
    (h : credential digest raw tokens secret now = .token e) :
    ∃ bytes value, raw = some bytes ∧ parseBearer bytes = .ok (.token, value) ∧ e ∈ tokens ∧
      e.digest = digest value ∧ ∀ t, e.expires = some t → now < t := by
  cases raw with
  | none => cases h
  | some bytes =>
    rw [credential] at h
    split at h
    · cases h
    · next value hparse => exact ⟨bytes, value, rfl, hparse, lookupToken_eq_token h⟩
    · split at h
      · split_ifs at h
      · cases h

theorem credential_eq_secret {raw : Option Bytes} {tokens : List (TokenEntry D)}
    {secret : Option (SecretSet D)} {now : Nat}
    (h : credential digest raw tokens secret now = .secret) :
    ∃ bytes value s, raw = some bytes ∧ parseBearer bytes = .ok (.secret, value) ∧ secret = some s ∧
      digest value ∈ s.digests := by
  cases raw with
  | none => cases h
  | some bytes =>
    rw [credential] at h
    split at h
    · cases h
    · rw [lookupToken] at h
      split at h
      · split_ifs at h
      · cases h
    · next value hparse =>
      split at h
      · next s =>
        split_ifs at h with hfind
        obtain ⟨i, hi⟩ := Option.isSome_iff_exists.mp hfind
        exact ⟨bytes, value, s, rfl, hparse, rfl, List.mem_of_getElem? (ctFind_eq_some hi)⟩
      · cases h

omit [DecidableEq D] in
/-- A call that needs a role is allowed by a token that covers it, or by the secret: then as a
join probe, or with the role the headers name. -/
theorem checkRole_eq_ok {path : String} {headers : Headers} {conn : Nat} {k : Need}
    {required : Role} {cred : Cred D} {c : Caller}
    (h : checkRole path headers conn k required cred = .ok c) :
    (∃ e, cred = .token e ∧ e.role.covers required = true ∧ c.role = some e.role) ∨
      cred = .secret ∧ (c.role = none ∨
        ∃ r, (header headers forwardedRoleHeader).bind Role.parse = some r ∧ c.role = some r) := by
  cases cred with
  | token e =>
    rw [checkRole] at h
    split_ifs at h with hcov
    cases h
    exact Or.inl ⟨e, rfl, hcov, rfl⟩
  | secret =>
    refine Or.inr ⟨rfl, ?_⟩
    rw [checkRole] at h
    split_ifs at h
    · cases h
      exact Or.inl rfl
    · split at h
      · next r hr =>
        split_ifs at h
        cases h
        exact Or.inr ⟨r, hr, rfl⟩
      · cases h
  | missing => cases h
  | malformed => cases h
  | unknown => cases h
  | expired => cases h

end

end MemoryGraph.Access
