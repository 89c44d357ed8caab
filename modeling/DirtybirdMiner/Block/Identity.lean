import DirtybirdMiner.Block.TransactionCodec

/-!
What the hash of a transaction binds, from `block/src/transaction.rs`.  It is the hash of the
header, which says everything about the transaction but its proofs; headers are prefix-free, so
no bytes behind a header can make it another one.
-/

namespace DirtybirdMiner.Block.Identity

open DirtybirdMiner.Lib
open DirtybirdMiner.Lib.Bytes
open DirtybirdMiner.Lib.Readers
open DirtybirdMiner.Bn256.Points
open DirtybirdMiner.Crypto.Statements (PointCodec compress PointForm)
open DirtybirdMiner.Block.Transactions
open DirtybirdMiner.Block.TransactionForms
open DirtybirdMiner.Block.TransactionCodec

section Core

variable {G : Type}

/-- A transaction without its proofs. -/
def core (tx : Transaction G) : Transaction G := { tx with payloads := tx.payloads.map bare }

/-- The fees of the payloads in the native asset; the sum is one of `u64`. -/
def Transaction.fees (tx : Transaction G) : UInt64 :=
  ((tx.payloads.filter fun p => p.scid = zeroBytes 32).map fun p => p.statement.fees).foldl
    (fun sum fees => sum + fees) 0

def Transaction.gasStorage (tx : Transaction G) : UInt64 := Transaction.fees tx

theorem fees_core (tx : Transaction G) : Transaction.fees (core tx) = Transaction.fees tx := by
  rw [Transaction.fees, Transaction.fees, core, List.filter_map, List.map_map]
  rfl

end Core

section Header

variable {G : Type} [PointCodec G] (gravitonSum : List UInt8 → FixedBytes 32)

/-- No field of a proof is written in the header. -/
theorem serializeHeader_core (tx : Transaction G) :
    (core tx).serializeHeader gravitonSum = tx.serializeHeader gravitonSum := by
  have hpayloads : (core tx).serializePayloads gravitonSum = tx.serializePayloads gravitonSum := by
    have hmap : (tx.payloads.map bare).mapM (fun p => expect (p.marshalHeaderStatement gravitonSum)) =
        tx.payloads.mapM fun p => expect (p.marshalHeaderStatement gravitonSum) :=
      List.mapM_map
    rw [Transaction.serializePayloads, Transaction.serializePayloads]
    change (if tx.txType.HasPayloads then _ else _) = _
    rw [core, List.length_map, hmap]
  rw [Transaction.serializeHeader, hpayloads]
  rfl

/-- Equal bytes are one header, with the same bytes behind it. -/
theorem headers_prefixFree {tx tx' : Transaction G1} (h : WellFormed (· ≠ .infinity) tx)
    (h' : WellFormed (· ≠ .infinity) tx') {headerB headerB' rest rest' : List UInt8}
    (hheader : tx.serializeHeader gravitonSum = some headerB)
    (hheader' : tx'.serializeHeader gravitonSum = some headerB')
    (heq : headerB ++ rest = headerB' ++ rest') : core tx = core tx' ∧ headerB = headerB' := by
  obtain ⟨_, _, hserialize, -, hform, -⟩ := h.forms pointForm_compress gravitonSum
  obtain ⟨_, _, hserialize', -, hform', -⟩ := h'.forms pointForm_compress gravitonSum
  obtain rfl := Option.some.inj (hserialize.symm.trans hheader)
  obtain rfl := Option.some.inj (hserialize'.symm.trans hheader')
  have hread := deserializeHeader_reads hform rest
  rw [heq, deserializeHeader_reads hform' rest'] at hread
  obtain ⟨htx, rfl⟩ := Prod.mk.inj (Option.some.inj hread)
  exact ⟨(Except.ok.inj htx).symm, List.append_cancel_right heq⟩

/-- Two well-formed transactions have one hash if and only if they differ in their proofs only,
or their headers are a collision of the hash function.  What agrees but for the proofs pays the
same fees. -/
theorem txid_binds (keccak256 : List UInt8 → FixedBytes 32) (tx tx' : Transaction G1)
    (h : WellFormed (· ≠ .infinity) tx) (h' : WellFormed (· ≠ .infinity) tx') :
    (tx.getHash gravitonSum keccak256 = tx'.getHash gravitonSum keccak256 ↔
      core tx = core tx' ∨ ∃ headerB headerB',
        tx.serializeHeader gravitonSum = some headerB ∧
        tx'.serializeHeader gravitonSum = some headerB' ∧
        headerB ≠ headerB' ∧ keccak256 headerB = keccak256 headerB') ∧
    (∀ headerB headerB' rest rest', tx.serializeHeader gravitonSum = some headerB →
      tx'.serializeHeader gravitonSum = some headerB' → headerB ++ rest = headerB' ++ rest' →
      core tx = core tx' ∧ headerB = headerB' ∧ rest = rest') ∧
    (core tx = core tx' → Transaction.gasStorage tx = Transaction.gasStorage tx') := by
  obtain ⟨headerB, _, hheader, -⟩ := h.forms pointForm_compress gravitonSum
  obtain ⟨headerB', _, hheader', -⟩ := h'.forms pointForm_compress gravitonSum
  have hhash : tx.getHash gravitonSum keccak256 = some (keccak256 headerB) := by
    rw [Transaction.getHash, hheader]
    rfl
  have hhash' : tx'.getHash gravitonSum keccak256 = some (keccak256 headerB') := by
    rw [Transaction.getHash, hheader']
    rfl
  refine ⟨⟨fun heq => ?_, ?_⟩, ?_, fun hcore => ?_⟩
  · rw [hhash, hhash'] at heq
    by_cases hsame : headerB = headerB'
    · subst hsame
      have hbytes : headerB ++ [] = headerB ++ [] := rfl
      exact .inl (headers_prefixFree gravitonSum h h' hheader hheader' hbytes).1
    · exact .inr ⟨headerB, headerB', hheader, hheader', hsame, Option.some.inj heq⟩
  · rintro (hcore | ⟨a, b, ha, hb, -, hcollision⟩)
    · rw [Transaction.getHash, Transaction.getHash, ← serializeHeader_core gravitonSum tx, hcore,
        serializeHeader_core]
    · rw [Transaction.getHash, Transaction.getHash, ha, hb]
      exact congrArg some hcollision
  · intro a b rest rest' ha hb heq
    obtain ⟨hcore, rfl⟩ := headers_prefixFree gravitonSum h h' ha hb heq
    exact ⟨hcore, rfl, List.append_cancel_left heq⟩
  · rw [Transaction.gasStorage, ← fees_core tx, hcore, fees_core]
    rfl

end Header

/-- Another response in place of the proof's own. -/
def maulProof (proof : Crypto.Proofs.Proof G1) : Crypto.Proofs.Proof G1 := { proof with sSk := 6 }

/-- The small transfer with another response in its proof. -/
def mauledTransfer : Transaction G1 :=
  { smallTransfer with
    payloads := smallTransfer.payloads.map fun p => { p with proof := p.proof.map maulProof } }

theorem maulProof_wellFormed {good : G1 → Prop} {m : Nat} {proof : Crypto.Proofs.Proof G1}
    (h : proof.WellFormed good m) : (maulProof proof).WellFormed good m := by
  have hscalars := h.scalars_lt
  rw [Crypto.Proofs.Proof.scalars, List.forall_mem_append] at hscalars
  obtain ⟨hf, hrest⟩ := hscalars
  simp only [List.forall_mem_cons] at hrest
  obtain ⟨hzA, hthat, hmu, hc, -, hothers⟩ := hrest
  have hsSk : 6 < 2 ^ 256 := by decide
  refine { h with scalars_lt := ?_ }
  rw [Crypto.Proofs.Proof.scalars, List.forall_mem_append]
  refine ⟨hf, ?_⟩
  simp only [List.forall_mem_cons]
  exact ⟨hzA, hthat, hmu, hc, hsSk, hothers⟩

theorem mauledTransfer_wellFormed : WellFormed (· ≠ .infinity) mauledTransfer := by
  refine ⟨rfl, fun _ => rfl, fun _ => rfl, fun _ => ⟨rfl, rfl⟩, fun hnot => ?_, fun _ => rfl,
    by simp [mauledTransfer, smallTransfer], ?_, by decide, by decide, fun hsc => by cases hsc⟩
  · exact absurd (.inr (.inl rfl)) hnot
  · intro p hp
    obtain rfl := List.mem_singleton.mp hp
    obtain ⟨hlimit, m, proof, hstatement, hproof, hwell⟩ :=
      smallTransfer_wellFormed.payloads_good _ List.mem_cons_self
    exact ⟨hlimit, m, _, hstatement, congrArg (Option.map maulProof) hproof,
      maulProof_wellFormed hwell⟩

theorem txid_binds_mauledTransfer :
    smallTransfer.getHash (fun _ => zeroBytes 32) (fun _ => zeroBytes 32) =
      mauledTransfer.getHash (fun _ => zeroBytes 32) (fun _ => zeroBytes 32) :=
  (txid_binds (fun _ => zeroBytes 32) (fun _ => zeroBytes 32) smallTransfer mauledTransfer
    smallTransfer_wellFormed mauledTransfer_wellFormed).1.mpr (.inl rfl)

end DirtybirdMiner.Block.Identity
