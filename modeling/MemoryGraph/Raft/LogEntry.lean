import MemoryGraph.Schema
import MemoryGraph.Lib.LittleEndian
import MemoryGraph.Lib.Fallible

/-! The encoding of a log entry: kind, log id, payload. -/

namespace MemoryGraph.Raft
open Lib List

abbrev U64 := Fin 18446744073709551616

instance u64_ne_zero : NeZero 18446744073709551616 := ⟨by decide⟩

structure LogId where
  term : U64
  node : U64
  index : U64
deriving DecidableEq, Repr

inductive Payload (M : Type)
  | blank
  | normal (command : List UInt8)
  | membership (m : M)
deriving DecidableEq, Repr

structure Entry (M : Type) where
  logId : LogId
  payload : Payload M
deriving DecidableEq, Repr

structure Serde (α : Type) where
  toVec : α → List UInt8
  fromSlice : List UInt8 → Except String α
  roundTrip : ∀ a, fromSlice (toVec a) = .ok a

variable {M : Type} (j : Serde M)

def kindBlank : UInt8 := 0
def kindNormal : UInt8 := 1
def kindMembership : UInt8 := 2

def toLeBytes (n : U64) : List UInt8 := leBytes 8 n

def u64At (bytes : List UInt8) (i : Nat) : U64 := Fin.ofNat _ (ofLeBytes ((bytes.drop i).take 8))

def encodePayload : Payload M → UInt8 × List UInt8
  | .blank => (kindBlank, [])
  | .normal command => (kindNormal, command)
  | .membership m => (kindMembership, j.toVec m)

def encodeEntry (e : Entry M) : List UInt8 :=
  (encodePayload j e.payload).1 :: (toLeBytes e.logId.term ++ (toLeBytes e.logId.node ++
    (toLeBytes e.logId.index ++ (encodePayload j e.payload).2)))

def decodePayload (kind : UInt8) (payload : List UInt8) : Except StoreError (Payload M) :=
  if kind = kindBlank then .ok .blank
  else if kind = kindNormal then .ok (.normal payload)
  else if kind = kindMembership then
    match j.fromSlice payload with
    | .ok m => .ok (.membership m)
    | .error e => .error (.corrupt ("raft log membership entry: " ++ e))
  else .error (.corrupt ("raft log entry kind " ++ toString kind.toNat ++ " is unknown"))

def decodeEntry (bytes : List UInt8) : Except StoreError (Entry M) := do
  failIf (bytes.length < 25) (StoreError.corrupt
    ("raft log entry is " ++ toString bytes.length ++ " bytes, expected at least 25"))
  let payload ← decodePayload j (bytes.headD 0) (bytes.drop 25)
  return ⟨⟨u64At bytes 1, u64At bytes 9, u64At bytes 17⟩, payload⟩

@[simp] theorem length_toLeBytes (n : U64) : (toLeBytes n).length = 8 := length_leBytes 8 n

theorem u64At_append (pre post : List UInt8) (n : U64) :
    u64At (pre ++ (toLeBytes n ++ post)) pre.length = n := by
  have hbytes : ((pre ++ (toLeBytes n ++ post)).drop pre.length).take 8 = toLeBytes n := by
    rw [drop_left]
    exact take_left' (length_toLeBytes n)
  rw [u64At, hbytes, toLeBytes, ofLeBytes_leBytes (by exact n.isLt)]
  exact Fin.ofNat_val_eq_self n

theorem decodePayload_encode (p : Payload M) :
    decodePayload j (encodePayload j p).1 (encodePayload j p).2 = .ok p := by
  cases p with
  | blank => rfl
  | normal command => rfl
  | membership m =>
    show decodePayload j kindMembership (j.toVec m) = _
    rw [decodePayload, if_neg (by decide), if_neg (by decide), if_pos rfl, j.roundTrip]

theorem decodeEntry_encodeEntry (e : Entry M) : decodeEntry j (encodeEntry j e) = .ok e := by
  obtain ⟨⟨term, node, index⟩, payload⟩ := e
  have hlen : (encodeEntry j ⟨⟨term, node, index⟩, payload⟩).length = 25 +
      (encodePayload j payload).2.length := by
    simp only [encodeEntry, length_cons, length_append, length_toLeBytes]
    omega
  have hterm : u64At (encodeEntry j ⟨⟨term, node, index⟩, payload⟩) 1 = term :=
    u64At_append [(encodePayload j payload).1] _ term
  have hnode : u64At (encodeEntry j ⟨⟨term, node, index⟩, payload⟩) 9 = node := by
    have := u64At_append ((encodePayload j payload).1 :: toLeBytes term)
      (toLeBytes index ++ (encodePayload j payload).2) node
    rwa [length_cons, length_toLeBytes] at this
  have hindex : u64At (encodeEntry j ⟨⟨term, node, index⟩, payload⟩) 17 = index := by
    have := u64At_append ((encodePayload j payload).1 :: (toLeBytes term ++ toLeBytes node))
      (encodePayload j payload).2 index
    rwa [length_cons, length_append, length_toLeBytes, length_toLeBytes, cons_append,
      append_assoc] at this
  have hrest : (encodeEntry j ⟨⟨term, node, index⟩, payload⟩).drop 25 =
      (encodePayload j payload).2 := by
    have hhead : ((encodePayload j payload).1 ::
        (toLeBytes term ++ (toLeBytes node ++ toLeBytes index))).length = 25 := by simp
    have hdrop := @List.drop_left' _ _ (encodePayload j payload).2 _ hhead
    rwa [cons_append, append_assoc, append_assoc] at hdrop
  have hpayload := decodePayload_encode j payload
  rw [decodeEntry, failIf_of_not (by omega), hterm, hnode, hindex, hrest]
  show (do
    let payload ← decodePayload j (encodePayload j payload).1 (encodePayload j payload).2
    return (⟨⟨term, node, index⟩, payload⟩ : Entry M)) = _
  rw [hpayload]
  rfl

end MemoryGraph.Raft
