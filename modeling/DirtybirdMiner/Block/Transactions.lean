import DirtybirdMiner.Args.Arguments
import DirtybirdMiner.Crypto.Proofs

/-!
Transactions of all types and their byte form, from `block/src/transaction.rs`.
-/

namespace DirtybirdMiner.Block.Transactions

open DirtybirdMiner.Lib
open DirtybirdMiner.Lib.Bytes
open DirtybirdMiner.Lib.Programs
open DirtybirdMiner.Lib.Programs.Prog
open DirtybirdMiner.Lib.Readers
open DirtybirdMiner.Args.Encoding
open DirtybirdMiner.Args.Arguments
open DirtybirdMiner.Crypto.Statements
open DirtybirdMiner.Crypto.Proofs

inductive TransactionType where
  | premine
  | registration
  | coinbase
  | normal
  | burn
  | sc
deriving DecidableEq

namespace TransactionType

def toU64 : TransactionType → UInt64
  | premine => 0
  | registration => 1
  | coinbase => 2
  | normal => 3
  | burn => 4
  | sc => 5

def fromU64 (v : UInt64) : Except String TransactionType :=
  if v = 0 then .ok premine
  else if v = 1 then .ok registration
  else if v = 2 then .ok coinbase
  else if v = 3 then .ok normal
  else if v = 4 then .ok burn
  else if v = 5 then .ok sc
  else .error "unknown transaction type"

/-- The types with a value. -/
def HasValue (t : TransactionType) : Prop := t = premine ∨ t = sc

/-- The types with a miner address. -/
def HasMiner (t : TransactionType) : Prop := t = premine ∨ t = coinbase ∨ t = registration

/-- The types with payloads. -/
def HasPayloads (t : TransactionType) : Prop := t = burn ∨ t = normal ∨ t = sc

/-- The types that may be followed by other data. -/
def MayTrail (t : TransactionType) : Prop := t = premine ∨ t = coinbase

instance : DecidablePred HasValue := fun _ => inferInstanceAs (Decidable (_ ∨ _))

instance : DecidablePred HasMiner := fun _ => inferInstanceAs (Decidable (_ ∨ _))

instance : DecidablePred HasPayloads := fun _ => inferInstanceAs (Decidable (_ ∨ _))

instance : DecidablePred MayTrail := fun _ => inferInstanceAs (Decidable (_ ∨ _))

theorem fromU64_toU64 (t : TransactionType) : fromU64 t.toU64 = .ok t := by
  cases t <;> rfl

theorem fromU64_eq_ok {v : UInt64} {t : TransactionType} (h : fromU64 v = .ok t) :
    v = t.toU64 := by
  unfold fromU64 at h
  split_ifs at h with h0 h1 h2 h3 h4 h5 <;> cases h <;> assumption

end TransactionType

/-- `PAYLOAD_LIMIT`. -/
def payloadLimit : Nat := 1 + 144

/-- Zeros, as an array starts out. -/
def zeroBytes (n : Nat) : FixedBytes n := ⟨List.replicate n 0, List.length_replicate⟩

structure AssetPayload (G : Type) where
  scid : FixedBytes 32
  burnValue : UInt64
  rpcType : UInt8
  rpcPayload : List UInt8
  statement : Statement G
  proof : Option (Proof G)
deriving DecidableEq

structure Transaction (G : Type) where
  version : UInt64 := 1
  sourceNetwork : UInt64 := 0
  destNetwork : UInt64 := 0
  txType : TransactionType := .coinbase
  value : UInt64 := 0
  minerAddress : FixedBytes 33 := zeroBytes 33
  c : FixedBytes 32 := zeroBytes 32
  s : FixedBytes 32 := zeroBytes 32
  height : UInt64 := 0
  blid : FixedBytes 32 := zeroBytes 32
  payloads : List (AssetPayload G) := []
  scdata : List UInt8 := []
deriving DecidableEq

section Cursor

def take (n : Nat) : Reader String (FixedBytes n) := takeOr "transaction: short read" n

/-- The value and the number of bytes, zero on an error. -/
def readUvarint (buf : List UInt8) : UInt64 × Nat :=
  match Uvarint.decode buf with
  | .error _ => (0, 0)
  | .ok r => r

def rv : Reader String UInt64 := do
  let (v, n) := readUvarint (← get)
  if n = 0 then fail "transaction: invalid varint"
  else do
    advance n
    pure v

/-- `take(r, 1)?[0]`. -/
def takeByte : Reader String UInt8 := do
  let b ← take 1
  pure (b.1.headD 0)

end Cursor

section Serialize

variable {G : Type} [PointCodec G] (gravitonSum : List UInt8 → FixedBytes 32)

/-- The inner `Err` is the caller's `expect`, a panic. -/
def AssetPayload.marshalHeaderStatement (p : AssetPayload G) :
    Option (Except String (List UInt8)) :=
  if p.rpcPayload.length ≠ payloadLimit then some (.error "rpc_payload must be PAYLOAD_LIMIT bytes")
  else do
    let (statement, _) ← p.statement.serialize gravitonSum
    some (.ok (Uvarint.encode p.burnValue ++ (p.scid.1 ++ ([p.rpcType] ++ (p.rpcPayload ++
      statement)))))

def AssetPayload.marshalProofs (p : AssetPayload G) : Option (Except String (List UInt8)) :=
  match p.proof with
  | none => some (.error "missing proof")
  | some proof => proof.serialize.map .ok

/-- `expect`. -/
def expect {α : Type} : Option (Except String α) → Option α
  | some (.ok a) => some a
  | _ => none

def Transaction.serializePayloads (tx : Transaction G) : Option (List UInt8) :=
  if tx.txType.HasPayloads then do
    let headers ← tx.payloads.mapM fun p => expect (p.marshalHeaderStatement gravitonSum)
    some (Uvarint.encode tx.height ++ (tx.blid.1 ++
      (Uvarint.encode (UInt64.ofNat tx.payloads.length) ++ headers.flatten)))
  else some []

def Transaction.serializeHeader (tx : Transaction G) : Option (List UInt8) := do
  let payloads ← tx.serializePayloads gravitonSum
  some (Uvarint.encode tx.version ++ (Uvarint.encode tx.sourceNetwork ++
    (Uvarint.encode tx.destNetwork ++ (Uvarint.encode tx.txType.toU64 ++
    ((if tx.txType.HasValue then Uvarint.encode tx.value else []) ++
    ((if tx.txType.HasMiner then tx.minerAddress.1 else []) ++
    ((if tx.txType = .registration then tx.c.1 ++ tx.s.1 else []) ++ (payloads ++
    (if tx.txType = .sc then Uvarint.encode (UInt64.ofNat tx.scdata.length) ++ tx.scdata
      else [])))))))))

/-- `none` is a panic. -/
def Transaction.serialize (tx : Transaction G) : Option (List UInt8) := do
  let header ← tx.serializeHeader gravitonSum
  let proofs ← tx.payloads.mapM fun p => expect p.marshalProofs
  some (header ++ proofs.flatten)

/-- The hash of the header. -/
def Transaction.getHash (keccak256 : List UInt8 → FixedBytes 32) (tx : Transaction G) :
    Option (FixedBytes 32) := do
  let header ← tx.serializeHeader gravitonSum
  some (keccak256 header)

end Serialize

section Deserialize

variable {G : Type} [PointCodec G]

def AssetPayload.unmarshalHeaderStatement : Reader String (AssetPayload G) := do
  let burnValue ← rv
  let scid ← take 32
  let rpcType ← takeByte
  let rpcPayload ← take payloadLimit
  let statement ← Statement.deserialize
  pure { scid, burnValue, rpcType, rpcPayload := rpcPayload.1, statement, proof := none }

def AssetPayload.unmarshalProofs (p : AssetPayload G) : Reader String (AssetPayload G) := do
  let count ← demand
    (countOf p.statement.publickeylistPointers.length p.statement.bytesPerPublickey)
  let m ← demand (powerOf2 count)
  let proof ← Proof.deserialize m.toNat
  pure { p with proof := some proof }

/-- The fields of a transaction with payloads. -/
structure Transfer (G : Type) where
  height : UInt64 := 0
  blid : FixedBytes 32 := zeroBytes 32
  payloads : List (AssetPayload G) := []

def readTransfer : Reader String (Transfer G) := do
  let height ← rv
  let blid ← take 32
  let assetCount ← rv
  if assetCount < 1 then fail "invalid asset_count in transaction"
  else do
    let payloads ← collect AssetPayload.unmarshalHeaderStatement assetCount.toNat
    pure { height, blid, payloads }

/-- The arguments are parsed and kept in canonical form. -/
def readScdata : Reader String (List UInt8) := do
  let scLen ← rv
  let raw ← take scLen.toNat
  match ← demand (unmarshalBinaryExact raw.1) with
  | .error _ => fail "tx: invalid scdata"
  | .ok args => pure (marshalBinary args)

/-- The loop over the payloads that parses their proofs. -/
def readProofs : List (AssetPayload G) → Reader String (List (AssetPayload G))
  | [] => pure []
  | p :: payloads => do
      let p ← p.unmarshalProofs
      let payloads ← readProofs payloads
      pure (p :: payloads)

/-- The two arrays of the signature. -/
def readSignature : Reader String (FixedBytes 32 × FixedBytes 32) := do
  let c ← take 32
  let s ← take 32
  pure (c, s)

/-- Everything but the proofs. -/
def Transaction.deserializeHeader : Reader String (Transaction G) := do
  let version ← rv
  if version ≠ 1 then fail "transaction version != 1"
  else do
    let sourceNetwork ← rv
    let destNetwork ← rv
    let txType ← rv
    let txType ← ofExcept (TransactionType.fromU64 txType)
    let value ← optionally txType.HasValue rv 0
    let minerAddress ← optionally txType.HasMiner (take 33) (zeroBytes 33)
    let (c, s) ← optionally (txType = .registration) readSignature (zeroBytes 32, zeroBytes 32)
    let { height, blid, payloads } ← optionally txType.HasPayloads readTransfer {}
    let scdata ← optionally (txType = .sc) readScdata []
    pure
      { version, sourceNetwork, destNetwork, txType, value, minerAddress, c, s, height, blid
        payloads, scdata }

def Transaction.deserializeBody : Reader String (Transaction G) := do
  let tx ← Transaction.deserializeHeader
  let payloads ← optionally tx.txType.HasPayloads (readProofs tx.payloads) tx.payloads
  pure { tx with payloads }

/-- The transaction and the number of bytes it takes; `none` is a panic. -/
def Transaction.deserialize (buf : List UInt8) : Option (Except String (Transaction G × Nat)) :=
  match Transaction.deserializeBody buf with
  | none => none
  | some (.error e, _) => some (.error e)
  | some (.ok tx, r) =>
      if r ≠ [] ∧ ¬tx.txType.MayTrail then some (.error "extra unknown data in transaction")
      else some (.ok (tx, buf.length - r.length))

end Deserialize

end DirtybirdMiner.Block.Transactions
