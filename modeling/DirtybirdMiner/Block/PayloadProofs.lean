import DirtybirdMiner.Block.TransactionCodec
import DirtybirdMiner.Bn256.Group
import DirtybirdMiner.Crypto.Verifier

/-!
The proofs of parsed payloads, before the verifier.  What the parser accepts fits a ring of one to
128 members; the ledger completes the statement with the balances and keys of the ring.
-/

namespace DirtybirdMiner.Block.PayloadProofs

open DirtybirdMiner.Lib.Bytes
open DirtybirdMiner.Bn256.Points
open DirtybirdMiner.Bn256.Group
open DirtybirdMiner.Crypto.Statements (PointCodec PointForm Statement)
open DirtybirdMiner.Crypto.Proofs (Proof)
open DirtybirdMiner.Crypto.Hashing
open DirtybirdMiner.Crypto.Verifier
open DirtybirdMiner.Block.Transactions
open DirtybirdMiner.Block.TransactionCodec

variable {G : Type}

/-- A statement with what the ledger knows of its ring. -/
def complete (s : Statement G) (cln crn publickeylist : List G) : Statement G :=
  { s with cln, crn, publickeylist }

theorem rounds_of_wellFormed {good : G → Prop} {m : Nat} {p : Proof G}
    (h : p.WellFormed good m) : Rounds p m where
  clnG_length := h.clnG_length
  crnG_length := h.crnG_length
  c0G_length := h.c0G_length
  dG_length := h.dG_length
  y0G_length := h.y0G_length
  gG_length := h.gG_length
  cXG_length := h.cXG_length
  yXG_length := h.yXG_length
  f_length := h.f_length.trans (Nat.mul_comm m 2)

variable [AddCommGroup G] [PointCodec G] (E : Hashes G)

/-- For a parsed payload, with any completion of its statement, the verifier returns if and only
if the ring has another size than one or the open amounts overflow. -/
theorem verify_parsed_returns_iff {buf : List UInt8} {tx : Transaction G} {read : Nat}
    (h : Transaction.deserialize buf = some (.ok (tx, read))) {payload : AssetPayload G}
    (hpayload : payload ∈ tx.payloads) {cln crn publickeylist : List G}
    (hcln : cln.length = payload.statement.ringSize)
    (hcrn : crn.length = payload.statement.ringSize)
    (hpublickeylist : publickeylist.length = payload.statement.ringSize)
    (scid : FixedBytes 32) (scidIndex : Nat) (txid : FixedBytes 32) (extraValue : UInt64) :
    ∃ proof, payload.proof = some proof ∧
      ((∃ accepted, verify E proof scid scidIndex
          (complete payload.statement cln crn publickeylist) txid extraValue = some accepted) ↔
        payload.statement.ringSize ≠ 1 ∨
          2 ^ 64 ≤ payload.statement.fees.toNat + extraValue.toNat) := by
  have hgood : ∀ (bytes : List UInt8) (g : G), PointForm bytes g → True := fun _ _ _ => trivial
  obtain ⟨-, m, proof, hstatement, hproof, hwell⟩ := deserialize_payloads hgood h payload hpayload
  have hring := hstatement.ringSize_eq
  have hcomplete : Complete (complete payload.statement cln crn publickeylist) (2 ^ m) :=
    ⟨hcln.trans hring, hcrn.trans hring, hpublickeylist.trans hring, hstatement.c_length⟩
  refine ⟨proof, hproof, ?_⟩
  rw [hring]
  exact verify_returns_iff E hstatement.power_le (rounds_of_wellFormed hwell) hwell.ls_length
    hwell.rs_length hcomplete scid scidIndex txid extraValue

/-- A hash function and a map to points, both constant. -/
def constantHashes : Hashes G1 where
  keccak256 _ := zeroBytes 32
  hashToPoint _ := somePoint

/-- The bytes of `somePoint`. -/
def pointBytes : List UInt8 := List.replicate 31 0 ++ [1, 0]

/-- The bytes of `smallTransfer`: the header with one payload and its statement of ring power zero,
and the proof. -/
def loneRing : List UInt8 :=
  [1, 0, 0, 3, 0] ++ List.replicate 32 0 ++ [1] ++
  ([0] ++ List.replicate 32 0 ++ [0] ++ List.replicate 145 0) ++
  ([0, 1, 0xac, 0x02] ++ pointBytes ++ [7] ++ pointBytes ++ List.replicate 32 0) ++
  ((List.replicate 5 pointBytes).flatten ++ beBytes 32 1 ++ pointBytes ++ pointBytes ++
    [2, 3, 4, 5, 6, 7, 8, 9, 10].flatMap (beBytes 32) ++ (List.replicate 14 pointBytes).flatten)

theorem deserialize_loneRing :
    Transaction.deserialize loneRing = some (.ok (smallTransfer, loneRing.length)) := by
  decide +kernel

/-- The payload is parsed, its statement is completed for its ring of one member, and the verifier
panics. -/
theorem verify_panics_loneRing :
    ∃ tx payload proof, Transaction.deserialize loneRing = some (.ok (tx, loneRing.length)) ∧
      payload ∈ tx.payloads ∧ payload.proof = some proof ∧ payload.statement.ringSize = 1 ∧
      verify constantHashes proof (zeroBytes 32) 0
        (complete payload.statement [somePoint] [somePoint] [somePoint]) (zeroBytes 32) 0 = none := by
  refine ⟨smallTransfer, _, _, deserialize_loneRing, List.mem_singleton_self _, rfl, rfl, ?_⟩
  exact verifyRing_panics constantHashes rfl _ _ _ _ _ _

theorem verify_parsed_returns_iff_loneRing :
    ∃ payload proof, payload ∈ smallTransfer.payloads ∧ payload.proof = some proof ∧
      ((∃ accepted, verify constantHashes proof (zeroBytes 32) 0
          (complete payload.statement [somePoint] [somePoint] [somePoint]) (zeroBytes 32) 0 =
            some accepted) ↔
        payload.statement.ringSize ≠ 1 ∨
          2 ^ 64 ≤ payload.statement.fees.toNat + (0 : UInt64).toNat) := by
  obtain ⟨payload, hmem, hring⟩ :
      ∃ payload ∈ smallTransfer.payloads, payload.statement.ringSize = 1 :=
    ⟨_, List.mem_singleton_self _, rfl⟩
  have hsize : [somePoint].length = payload.statement.ringSize := hring.symm
  obtain ⟨proof, hproof, hiff⟩ := verify_parsed_returns_iff constantHashes deserialize_loneRing hmem
    hsize hsize hsize (zeroBytes 32) 0 (zeroBytes 32) 0
  exact ⟨payload, proof, hmem, hproof, hiff⟩

end DirtybirdMiner.Block.PayloadProofs
