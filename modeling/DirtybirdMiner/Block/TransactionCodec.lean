import DirtybirdMiner.Block.TransactionForms

/-!
Decoding and encoding of transactions: what is well formed is written and read
back, what is read is well formed, and the parser panics on one kind of input only,
a payload with an empty ring.
-/

namespace DirtybirdMiner.Block.TransactionCodec

open DirtybirdMiner.Lib
open DirtybirdMiner.Lib.Bytes
open DirtybirdMiner.Lib.Programs
open DirtybirdMiner.Lib.Programs.Prog
open DirtybirdMiner.Lib.Readers
open DirtybirdMiner.Bn256.Points
open DirtybirdMiner.Args.Encoding
open DirtybirdMiner.Args.Arguments
open DirtybirdMiner.Args.Canonical
open DirtybirdMiner.Crypto.Statements (PointCodec compress countOf powerOf2 powerOf2_two_pow
  ringSizeOf Statement StatementForm PointForm)
open DirtybirdMiner.Crypto.Proofs
open DirtybirdMiner.Block.Transactions
open DirtybirdMiner.Block.TransactionForms

section WellFormed

variable {G : Type}

/-- A payload with its proof. -/
structure WellFormedPayload (good : G → Prop) (p : AssetPayload G) : Prop where
  rpc_length : p.rpcPayload.length = payloadLimit
  parts : ∃ m proof, p.statement.WellFormed good m ∧ p.proof = some proof ∧
    proof.WellFormed good m

/-- A payload before its proof is read. -/
def bare (p : AssetPayload G) : AssetPayload G := { p with proof := none }

/-- A transaction in which only the fields of its type are set.  The number of
payloads and of bytes of arguments is a `usize`. -/
structure WellFormed (good : G → Prop) (tx : Transaction G) : Prop where
  version_eq : tx.version = 1
  value_eq : ¬tx.txType.HasValue → tx.value = 0
  miner_eq : ¬tx.txType.HasMiner → tx.minerAddress = zeroBytes 33
  signature_eq : tx.txType ≠ .registration → tx.c = zeroBytes 32 ∧ tx.s = zeroBytes 32
  transfer_eq : ¬tx.txType.HasPayloads →
    tx.height = 0 ∧ tx.blid = zeroBytes 32 ∧ tx.payloads = []
  scdata_eq : tx.txType ≠ .sc → tx.scdata = []
  payloads_ne : tx.txType.HasPayloads → tx.payloads ≠ []
  payloads_good : ∀ p ∈ tx.payloads, WellFormedPayload good p
  payloads_length : tx.payloads.length < 2 ^ 64
  scdata_length : tx.scdata.length < 2 ^ 64
  scdata_canonical : tx.txType = .sc →
    ∃ args, unmarshalBinaryExact tx.scdata = some (.ok args) ∧ marshalBinary args = tx.scdata

end WellFormed

section Writing

variable {G : Type} [PointCodec G] {good : G → Prop}
  (hgood : ∀ g, good g → PointForm (compress g).1 g) (gravitonSum : List UInt8 → FixedBytes 32)

include hgood

/-- The payload without its proof is written in its form, and the proof in its own. -/
theorem WellFormedPayload.forms {p : AssetPayload G} (h : WellFormedPayload good p) :
    ∃ headerB proofB proof count m, expect (p.marshalHeaderStatement gravitonSum) = some headerB ∧
      expect p.marshalProofs = some proofB ∧ PayloadForm headerB (bare p) ∧
      p.proof = some proof ∧ Counted p count ∧ powerOf2 count = some m ∧
      ProofForm m.toNat proofB proof := by
  obtain ⟨m, proof, hstatement, hproof, hwell⟩ := h.parts
  obtain ⟨statementB, hserialize, hform⟩ := hstatement.serialize_form hgood gravitonSum
  obtain ⟨proofB, hproofB, hproofForm⟩ := hwell.serialize_form hgood
  have hm : (UInt8.ofNat m).toNat = m := by
    have := hstatement.power_le
    rw [UInt8.toNat_ofNat']
    omega
  refine ⟨_, proofB, proof, 2 ^ m, UInt8.ofNat m, ?_, ?_,
    .mk (Uvarint.encode_form p.burnValue) h.rpc_length hform, hproof, ?_, powerOf2_two_pow, ?_⟩
  · rw [AssetPayload.marshalHeaderStatement, if_neg (not_not.mpr h.rpc_length), hserialize]
    rfl
  · rw [AssetPayload.marshalProofs, hproof]
    dsimp only
    rw [hproofB]
    rfl
  · rw [Counted, countOf, if_neg hstatement.width_ne, hstatement.pointers_length,
      Nat.mul_div_cancel _ (Crypto.Statements.toNat_pos_of_ne_zero hstatement.width_ne)]
  · rw [hm]
    exact hproofForm

theorem payloads_forms {payloads : List (AssetPayload G)}
    (h : ∀ p ∈ payloads, WellFormedPayload good p) :
    ∃ headers proofs : List (List UInt8),
      payloads.mapM (fun p => expect (p.marshalHeaderStatement gravitonSum)) = some headers ∧
      payloads.mapM (fun p => expect p.marshalProofs) = some proofs ∧
      Row PayloadForm headers.flatten (payloads.map bare) ∧
      ProofsForm (payloads.map bare) proofs.flatten payloads := by
  induction payloads with
  | nil => exact ⟨[], [], rfl, rfl, .nil, .nil⟩
  | cons p payloads ih =>
      rw [List.forall_mem_cons] at h
      obtain ⟨headerB, proofB, proof, count, m, hheader, hproofB, hform, hproof, hcount, hpower,
        hproofForm⟩ := h.1.forms hgood gravitonSum
      obtain ⟨headers, proofs, hheaders, hproofs, hrow, hrest⟩ := ih h.2
      refine ⟨headerB :: headers, proofB :: proofs, ?_, ?_, .cons hform hrow, ?_⟩
      · simp [List.mapM_cons, hheader, hheaders]
      · simp [List.mapM_cons, hproofB, hproofs]
      · have hcons := ProofsForm.cons (p := bare p) hcount hpower hproofForm hrest
        rw [← hproof] at hcons
        exact hcons

/-- A well-formed transaction is written as a header and proofs in their forms. -/
theorem WellFormed.forms {tx : Transaction G} (h : WellFormed good tx) :
    ∃ headerB proofsB, tx.serializeHeader gravitonSum = some headerB ∧
      tx.serialize gravitonSum = some (headerB ++ proofsB) ∧
      HeaderForm headerB { tx with payloads := tx.payloads.map bare } ∧
      ProofsForm (tx.payloads.map bare) proofsB tx.payloads := by
  obtain ⟨headers, proofs, hheaders, hproofs, hrow, hproofsForm⟩ :=
    payloads_forms hgood gravitonSum h.payloads_good
  have hcount : (UInt64.ofNat tx.payloads.length).toNat = tx.payloads.length := by
    rw [UInt64.toNat_ofNat', Nat.mod_eq_of_lt h.payloads_length]
  have hlength : (UInt64.ofNat tx.scdata.length).toNat = tx.scdata.length := by
    rw [UInt64.toNat_ofNat', Nat.mod_eq_of_lt h.scdata_length]
  have hpayloads : tx.serializePayloads gravitonSum =
      some (if tx.txType.HasPayloads then Uvarint.encode tx.height ++ (tx.blid.1 ++
        (Uvarint.encode (UInt64.ofNat tx.payloads.length) ++ headers.flatten)) else []) := by
    rw [Transaction.serializePayloads, hheaders]
    split <;> rfl
  have htransfer : tx.txType.HasPayloads → TransferForm (Uvarint.encode tx.height ++ (tx.blid.1 ++
      (Uvarint.encode (UInt64.ofNat tx.payloads.length) ++ headers.flatten)))
      ⟨tx.height, tx.blid, tx.payloads.map bare⟩ := by
    intro hhas
    refine .mk (Uvarint.encode_form _) (Uvarint.encode_form _) ?_ hrow ?_
    · rw [UInt64.le_iff_toNat_le, hcount]
      exact List.length_pos_iff.mpr (h.payloads_ne hhas)
    · rw [List.length_map, hcount]
  have hscdata : tx.txType = .sc →
      ScdataForm (Uvarint.encode (UInt64.ofNat tx.scdata.length) ++ tx.scdata) tx.scdata := by
    intro hsc
    obtain ⟨args, haccepted, hcanonical⟩ := h.scdata_canonical hsc
    have hform := ScdataForm.mk (Uvarint.encode_form _) hlength.symm haccepted
    rwa [hcanonical] at hform
  have hdefault : ¬tx.txType.HasPayloads →
      (Transfer.mk tx.height tx.blid (tx.payloads.map bare) : Transfer G) = {} := by
    intro hnot
    obtain ⟨hheight, hblid, hnil⟩ := h.transfer_eq hnot
    rw [hheight, hblid, hnil]
    rfl
  have hheader := HeaderForm.mk (Uvarint.encode_form 1) (Uvarint.encode_form tx.sourceNetwork)
    (Uvarint.encode_form tx.destNetwork) (Uvarint.encode_form tx.txType.toU64)
    (optionally_ite (fun _ => Uvarint.encode_form tx.value) h.value_eq)
    (optionally_ite (fun _ => rfl) h.miner_eq)
    (optionally_ite (fun _ => SignatureForm.mk tx.c tx.s) fun hne =>
      Prod.ext (h.signature_eq hne).1 (h.signature_eq hne).2)
    (optionally_ite htransfer hdefault) (optionally_ite hscdata h.scdata_eq)
  rw [← h.version_eq] at hheader
  obtain ⟨headerB, hserialize, hform⟩ : ∃ headerB, tx.serializeHeader gravitonSum = some headerB ∧
      HeaderForm headerB { tx with payloads := tx.payloads.map bare } := by
    refine ⟨_, ?_, hheader⟩
    rw [Transaction.serializeHeader, hpayloads, Option.bind_eq_bind, Option.bind_some]
  refine ⟨headerB, proofs.flatten, hserialize, ?_, hform, hproofsForm⟩
  rw [Transaction.serialize, hserialize, hproofs]
  rfl

end Writing

section Reading

variable {G : Type} [PointCodec G]

/-- A header and its proofs are read as the transaction. -/
theorem deserializeBody_reads {headerB proofsB : List UInt8} {tx : Transaction G}
    (hheader : HeaderForm headerB { tx with payloads := tx.payloads.map bare })
    (hproofs : ProofsForm (tx.payloads.map bare) proofsB tx.payloads)
    (hnone : ¬tx.txType.HasPayloads → tx.payloads = []) :
    Reads Transaction.deserializeBody (headerB ++ proofsB) tx := by
  refine (deserializeHeader_reads hheader).bind (Reads.last (a := tx.payloads) ?_ (reads_pure _))
  unfold optionally
  dsimp only
  split
  · exact readProofs_reads hproofs
  · rename_i hnot
    rw [hnone hnot] at hproofs ⊢
    cases hproofs
    exact reads_pure _

theorem deserialize_of_reads {bytes : List UInt8} {tx : Transaction G}
    (h : Reads Transaction.deserializeBody bytes tx) :
    Transaction.deserialize bytes = some (.ok (tx, bytes.length)) ∧
      (tx.txType.MayTrail → ∀ rest,
        Transaction.deserialize (bytes ++ rest) = some (.ok (tx, bytes.length))) := by
  constructor
  · have hread := h []
    rw [List.append_nil] at hread
    simp [Transaction.deserialize, hread]
  · intro htrail rest
    simp [Transaction.deserialize, h rest, htrail]

theorem HeaderForm.payloads {bytes : List UInt8} {tx : Transaction G} (h : HeaderForm bytes tx) :
    (∀ p ∈ tx.payloads, ∃ bytes, PayloadForm bytes p) ∧ tx.payloads.length < 2 ^ 64 ∧
      (tx.txType.HasPayloads → tx.payloads ≠ []) ∧
      (¬tx.txType.HasPayloads → tx.height = 0 ∧ tx.blid = zeroBytes 32 ∧ tx.payloads = []) := by
  cases h with
  | mk _ _ _ _ _ _ _ transferForm _ =>
      rcases transferForm with ⟨hhas, transfer⟩ | ⟨hnot, -, rfl⟩
      · cases transfer with
        | @mk _ _ _ _ count _ _ _ _ hsome rowForm rowLength =>
            refine ⟨rowForm.forall fun bytes p hp => ⟨bytes, hp⟩, ?_, ?_, fun hnot => absurd hhas hnot⟩
            · rw [rowLength]
              exact count.toNat_lt
            · intro _
              rw [← List.length_pos_iff, rowLength]
              rw [UInt64.le_iff_toNat_le] at hsome
              exact hsome
      · exact ⟨by simp, by simp, fun hhas => absurd hhas hnot, fun _ => ⟨rfl, rfl, rfl⟩⟩

/-- What an accepted buffer consists of. -/
theorem deserialize_eq_ok {buf : List UInt8} {tx : Transaction G} {n : Nat}
    (h : Transaction.deserialize buf = some (.ok (tx, n))) :
    ∃ headerB proofsB rest tx₀, buf = headerB ++ (proofsB ++ rest) ∧ HeaderForm headerB tx₀ ∧
      ProofsForm tx₀.payloads proofsB tx.payloads ∧ tx = { tx₀ with payloads := tx.payloads } ∧
      n = buf.length - rest.length ∧ (rest = [] ∨ tx.txType.MayTrail) := by
  unfold Transaction.deserialize at h
  split at h
  · cases h
  · cases h
  · rename_i tx' r hbody
    split at h
    · cases h
    · rename_i htrail
      cases h
      replace hbody := bind_eq_ok hbody
      obtain ⟨tx₀, s, hheader, hbody⟩ := hbody
      replace hbody := bind_eq_ok hbody
      obtain ⟨payloads, s', hproofs, hbody⟩ := hbody
      cases hbody
      obtain ⟨r', s'', heq, hparse⟩ := deserializeHeader_parses (G := G) buf
      rw [hheader] at heq
      cases heq
      obtain ⟨headerB, rfl, hform⟩ := hparse tx₀ rfl
      obtain ⟨hforms, -, -, hnone⟩ := HeaderForm.payloads hform
      have hrest : r = [] ∨ tx₀.txType.MayTrail := by
        refine or_iff_not_imp_left.mpr fun hr => ?_
        by_contra hm
        exact htrail ⟨hr, hm⟩
      unfold optionally at hproofs
      split at hproofs
      · obtain ⟨proofsB, rfl, hproofsForm⟩ := readProofs_ok hforms hproofs
        exact ⟨headerB, proofsB, r, tx₀, rfl, hform, hproofsForm, rfl, rfl, hrest⟩
      · rename_i hnot
        cases hproofs
        refine ⟨headerB, [], r, tx₀, rfl, hform, ?_, rfl, rfl, hrest⟩
        rw [(hnone hnot).2.2]
        exact .nil

theorem ProofsForm.length_eq {payloads payloads' : List (AssetPayload G)} {bytes : List UInt8}
    (h : ProofsForm payloads bytes payloads') : payloads'.length = payloads.length := by
  induction h with
  | nil => rfl
  | cons _ _ _ _ ih => rw [List.length_cons, List.length_cons, ih]

/-- The payloads that are read are well formed. -/
theorem ProofsForm.wellFormed {good : G → Prop} (hgood : ∀ bytes g, PointForm bytes g → good g)
    {payloads payloads' : List (AssetPayload G)} {bytes : List UInt8}
    (h : ProofsForm payloads bytes payloads')
    (hforms : ∀ p ∈ payloads, ∃ bytes, PayloadForm bytes p) :
    ∀ p ∈ payloads', WellFormedPayload good p := by
  induction h with
  | nil => simp
  | @cons p payloads payloads' _ _ count m proof counted power proofForm _ ih =>
      rw [List.forall_mem_cons] at hforms ⊢
      refine ⟨?_, ih hforms.2⟩
      obtain ⟨bytes, hform⟩ := hforms.1
      obtain ⟨hlimit, ringPower, _, hstatement⟩ := PayloadForm.statement hform
      obtain rfl : ringSizeOf ringPower = count := by
        have hcount := (StatementForm.ring hstatement).2
        rw [counted] at hcount
        exact (Option.some.inj hcount).symm
      -- The ring is not empty, since it has a power.
      rw [powerOf2_ringSizeOf] at power
      split at power
      · cases power
      rename_i hring
      obtain rfl := Option.some.inj power
      have hsmall : ringPower.toNat < 64 := by
        by_contra hlarge
        exact hring (if_neg hlarge)
      exact ⟨hlimit, ringPower.toNat, proof, hstatement.wellFormed hsmall hgood, rfl,
        proofForm.wellFormed hgood⟩

/-- The payloads of an accepted transaction are well formed. -/
theorem deserialize_payloads {good : G → Prop} (hgood : ∀ bytes g, PointForm bytes g → good g)
    {buf : List UInt8} {tx : Transaction G} {n : Nat}
    (h : Transaction.deserialize buf = some (.ok (tx, n))) :
    ∀ p ∈ tx.payloads, WellFormedPayload good p := by
  obtain ⟨_, _, _, tx₀, -, hheader, hproofs, -⟩ := deserialize_eq_ok h
  exact ProofsForm.wellFormed hgood hproofs (HeaderForm.payloads hheader).1

end Reading

/-- The points that are written and read back: all but infinity. -/
theorem pointForm_compress (g : G1) (h : g ≠ .infinity) : PointForm (compress g).1 g := by
  cases g with
  | infinity => exact absurd rfl h
  | affine P =>
      refine ⟨(compress (G1.affine P)).2, ?_⟩
      change G1.decompress (G1.affine P).compress.1 = _
      rw [G1.compress_affine]
      exact G1.decompress_compressed P

theorem ne_infinity_of_pointForm (bytes : List UInt8) (g : G1) (h : PointForm bytes g) :
    g ≠ .infinity := by
  obtain ⟨-, P, rfl⟩ := G1.decompress_eq_ok h.2
  exact G1.noConfusion

theorem deserialize_of_wellFormed {tx : Transaction G1} (h : WellFormed (· ≠ .infinity) tx)
    (gravitonSum : List UInt8 → FixedBytes 32) :
    ∃ bytes, tx.serialize gravitonSum = some bytes ∧
      Transaction.deserialize bytes = some (.ok (tx, bytes.length)) ∧
      (tx.txType.MayTrail → ∀ rest,
        Transaction.deserialize (bytes ++ rest) = some (.ok (tx, bytes.length))) := by
  obtain ⟨headerB, proofsB, -, hserialize, hheader, hproofs⟩ :=
    h.forms pointForm_compress gravitonSum
  have hreads := deserializeBody_reads hheader hproofs fun hnot => (h.transfer_eq hnot).2.2
  exact ⟨headerB ++ proofsB, hserialize, deserialize_of_reads hreads⟩

/-- Decoding undoes encoding, for every type of transaction; what follows a premine
or coinbase transaction is left. -/
theorem transaction_roundTrip (tx : Transaction G1) (h : WellFormed (· ≠ .infinity) tx)
    (gravitonSum : List UInt8 → FixedBytes 32) :
    ∃ bytes, tx.serialize gravitonSum = some bytes ∧
      Transaction.deserialize bytes = some (.ok (tx, bytes.length)) ∧
      (tx.txType.MayTrail → ∀ rest,
        Transaction.deserialize (bytes ++ rest) = some (.ok (tx, bytes.length))) :=
  deserialize_of_wellFormed h gravitonSum

/-- A point, in every place of a transaction. -/
def somePoint : G1 := .affine Args.RoundTrip.generatorPoint

/-- A transfer with one payload, whose ring has one member. -/
def smallTransfer : Transaction G1 where
  txType := .normal
  payloads := [{
    scid := zeroBytes 32, burnValue := 0, rpcType := 0, rpcPayload := (zeroBytes payloadLimit).1
    statement := {
      ringSize := 1, cln := [], crn := [], bytesPerPublickey := 1, publickeylistPointers := [7]
      publickeylist := [], c := [somePoint], d := somePoint, fees := 300, roothash := zeroBytes 32 }
    proof := some {
      ba := somePoint, bs := somePoint, a := somePoint, b := somePoint, clnG := [], crnG := []
      c0G := [], dG := [], y0G := [], gG := [], cXG := [], yXG := [], u := somePoint, f := []
      zA := 1, t1 := somePoint, t2 := somePoint, that := 2, mu := 3, c := 4, sSk := 5, sR := 6
      sB := 7, sTau := 8
      ip := {
        a := 9, b := 10, ls := List.replicate 7 somePoint, rs := List.replicate 7 somePoint } } }]

theorem smallTransfer_wellFormed : WellFormed (· ≠ .infinity) smallTransfer := by
  have hpoint : somePoint ≠ .infinity := G1.noConfusion
  refine ⟨rfl, fun _ => rfl, fun _ => rfl, fun _ => ⟨rfl, rfl⟩, fun hnot => ?_, fun _ => rfl,
    by simp [smallTransfer], ?_, by decide, by decide, fun hsc => by cases hsc⟩
  · exact absurd (.inr (.inl rfl)) hnot
  · intro p hp
    obtain rfl := List.mem_singleton.mp hp
    refine ⟨rfl, 0, _, ?_, rfl, ?_⟩
    · exact ⟨by decide, by decide, rfl, rfl, rfl, rfl, rfl, rfl, hpoint, by simp [hpoint]⟩
    · exact ⟨rfl, rfl, rfl, rfl, rfl, rfl, rfl, rfl, rfl, rfl, rfl, by simp [Proof.points, hpoint],
        by decide⟩

theorem transaction_roundTrip_smallTransfer :
    ∃ bytes, smallTransfer.serialize (fun _ => zeroBytes 32) = some bytes ∧
      Transaction.deserialize bytes = some (.ok (smallTransfer, bytes.length)) := by
  obtain ⟨bytes, hbytes, hread, -⟩ :=
    transaction_roundTrip smallTransfer smallTransfer_wellFormed fun _ => zeroBytes 32
  exact ⟨bytes, hbytes, hread⟩

section Canonical

/-- What is accepted is well formed if its arguments are. -/
theorem wellFormed_of_deserialize {buf : List UInt8} {tx : Transaction G1} {n : Nat}
    (h : Transaction.deserialize buf = some (.ok (tx, n))) (hlength : tx.scdata.length < 2 ^ 64)
    (hscdata : tx.txType = .sc →
      ∃ args, unmarshalBinaryExact tx.scdata = some (.ok args) ∧ marshalBinary args = tx.scdata) :
    WellFormed (· ≠ .infinity) tx := by
  have hgood := deserialize_payloads ne_infinity_of_pointForm h
  obtain ⟨headerB, proofsB, rest, tx₀, -, hheader, hproofs, htx, -⟩ := deserialize_eq_ok h
  obtain ⟨-, hcount, hsome, hnone⟩ := HeaderForm.payloads hheader
  have hsame := ProofsForm.length_eq hproofs
  generalize tx.payloads = payloads at hgood hproofs htx hsame
  subst htx
  cases hheader with
  | mk versionForm sourceForm destForm typeForm valueForm minerForm signatureForm transferForm
      scdataForm =>
      refine ⟨rfl, valueForm.absent, minerForm.absent, ?_, ?_, scdataForm.absent, ?_, hgood, ?_,
        hlength, hscdata⟩
      · intro hne
        have hpair := signatureForm.absent hne
        exact ⟨congrArg Prod.fst hpair, congrArg Prod.snd hpair⟩
      · intro hnot
        obtain ⟨hheight, hblid, hnil⟩ := hnone hnot
        refine ⟨hheight, hblid, ?_⟩
        dsimp only at hnil hsame ⊢
        rw [hnil] at hsame
        exact List.length_eq_zero_iff.mp hsame
      · intro hhas
        dsimp only at hsame ⊢
        rw [← List.length_pos_iff, hsame, List.length_pos_iff]
        exact hsome hhas
      · dsimp only at hsame ⊢
        rw [hsame]
        exact hcount

/-- The arguments of an accepted contract call, as they stand in the buffer. -/
theorem scdata_of_deserialize {buf : List UInt8} {tx : Transaction G1} {n : Nat}
    (h : Transaction.deserialize buf = some (.ok (tx, n))) (hsc : tx.txType = .sc) :
    ∃ raw args, raw <:+: buf ∧ unmarshalBinaryExact raw = some (.ok args) ∧
      tx.scdata = marshalBinary args := by
  obtain ⟨headerB, proofsB, rest, tx₀, rfl, hheader, -, htx, -⟩ := deserialize_eq_ok h
  generalize tx.payloads = payloads at htx
  subst htx
  cases hheader with
  | @mk versionB sourceB destB typeB valueB minerB signatureB transferB scdataB _ _ _ _ _ _ _ _ _
      versionForm sourceForm destForm typeForm valueForm minerForm signatureForm transferForm
      scdataForm =>
      have hform := scdataForm.present hsc
      dsimp only at hform ⊢
      cases hform with
      | @mk lengthB raw _ args _ _ accepted =>
          refine ⟨raw, args, ⟨versionB ++ sourceB ++ destB ++ typeB ++ valueB ++ minerB ++
            signatureB ++ transferB ++ lengthB, proofsB ++ rest, ?_⟩, accepted, rfl⟩
          simp only [List.append_assoc]

/-- Apart from the zero time and the address of zeros, the canonical form of accepted
arguments is accepted and canonical, and a contract call that is accepted is
accepted again after it has been written, under the same hash. -/
theorem canonical_idempotent (gravitonSum keccak256 : List UInt8 → FixedBytes 32) :
    (∀ data a, unmarshalBinaryExact data = some (.ok a) → (∀ arg ∈ a, Settled arg.value) →
      (marshalBinary a).length < 2 ^ 63 →
      ∃ r, unmarshalBinaryExact (marshalBinary a) = some (.ok r) ∧
        marshalBinary r = marshalBinary a) ∧
    ∀ (buf : List UInt8) (tx : Transaction G1) (n : Nat),
      Transaction.deserialize buf = some (.ok (tx, n)) → tx.txType = .sc →
      tx.scdata.length < 2 ^ 63 →
      ∃ raw args, raw <:+: buf ∧ unmarshalBinaryExact raw = some (.ok args) ∧
        tx.scdata = marshalBinary args ∧
        ((∀ arg ∈ args, Settled arg.value) →
          ∃ (bytes : List UInt8) (tx' : Transaction G1) (n' : Nat) (hash : FixedBytes 32),
            tx.serialize gravitonSum = some bytes ∧
            Transaction.deserialize bytes = some (.ok (tx', n')) ∧
            tx.getHash gravitonSum keccak256 = some hash ∧
            tx'.getHash gravitonSum keccak256 = some hash) := by
  refine ⟨fun data a h hvalues hsize => remarshal h hvalues hsize, ?_⟩
  intro buf tx n h hsc hsize
  obtain ⟨raw, args, hraw, haccepted, hscdata⟩ := scdata_of_deserialize h hsc
  refine ⟨raw, args, hraw, haccepted, hscdata, ?_⟩
  intro hvalues
  rw [hscdata] at hsize
  obtain ⟨r, hr, hcanonical⟩ := remarshal haccepted hvalues hsize
  rw [← hscdata] at hr hcanonical hsize
  have hwell := wellFormed_of_deserialize h (by omega) fun _ => ⟨r, hr, hcanonical⟩
  obtain ⟨headerB, proofsB, hheaderB, hserialize, hheader, hproofs⟩ :=
    hwell.forms pointForm_compress gravitonSum
  have hreads := deserializeBody_reads hheader hproofs fun hnot => (hwell.transfer_eq hnot).2.2
  have hhash : tx.getHash gravitonSum keccak256 = some (keccak256 headerB) := by
    rw [Transaction.getHash, hheaderB]
    rfl
  exact ⟨headerB ++ proofsB, tx, _, _, hserialize, (deserialize_of_reads hreads).1, hhash, hhash⟩

/-- A map with the number 5 in a longer form than needed, under the key `aU`. -/
def longForm : List UInt8 := [0xa1, 0x62, 0x61, 0x55, 0x18, 0x05]

theorem canonical_idempotent_longForm :
    ∃ a r, unmarshalBinaryExact longForm = some (.ok a) ∧
      unmarshalBinaryExact (marshalBinary a) = some (.ok r) ∧ marshalBinary r = marshalBinary a := by
  let a : List Argument := [⟨⟨[0x61], by decide⟩, .uint64 5⟩]
  have haccepted : unmarshalBinaryExact longForm = some (.ok a) := by decide +kernel
  obtain ⟨r, hr⟩ := (canonical_idempotent (fun _ => zeroBytes 32) fun _ => zeroBytes 32).1 longForm a
    haccepted (by decide) (by decide)
  exact ⟨a, r, haccepted, hr⟩

/-- A time that is not a number, under the key `aT`. -/
def nanTime : List UInt8 := [0xa1, 0x62, 0x61, 0x54, 0xc1, 0xf9, 0x7e, 0x00]

/-- An address whose coordinate is larger than the field prime, under the key `aA`. -/
def largeAddress : List UInt8 :=
  [0xa1, 0x62, 0x61, 0x41, 0x58, 0x21] ++ beBytes 32 (Bn256.Prime.fieldPrime + 1) ++ [0]

/-- Whether arguments are accepted. -/
def isAccepted (data : List UInt8) : Bool :=
  match unmarshalBinaryExact data with
  | some (.ok _) => true
  | _ => false

theorem not_canonical_closed :
    (unmarshalBinaryExact nanTime = some (.ok [⟨⟨[0x61], by decide⟩, .time goZeroTimeUnix⟩]) ∧
      isAccepted (marshalBinary [⟨⟨[0x61], by decide⟩, .time goZeroTimeUnix⟩]) = false) ∧
    (unmarshalBinaryExact largeAddress = some (.ok [⟨⟨[0x61], by decide⟩, .address zeroAddress⟩]) ∧
      isAccepted (marshalBinary [⟨⟨[0x61], by decide⟩, .address zeroAddress⟩]) = false) := by
  refine ⟨⟨?_, ?_⟩, ?_, ?_⟩
  · decide +kernel
  · decide +kernel
  · decide +kernel
  · decide +kernel

end Canonical

section Panics

/-- A transaction with a payload whose ring power is 64 or more, so that its ring
is empty, behind payloads whose proofs can be read. -/
def EmptyRing (buf : List UInt8) : Prop :=
  ∃ (headerB proofsB rest : List UInt8) (tx : Transaction G1)
    (before : List (AssetPayload G1)) (p : AssetPayload G1)
    (behind before' : List (AssetPayload G1)),
    buf = headerB ++ (proofsB ++ rest) ∧ HeaderForm headerB tx ∧
      tx.payloads = before ++ p :: behind ∧ p.statement.ringSize = 0 ∧
      ProofsForm before proofsB before'

theorem deserialize_eq_none {buf : List UInt8} :
    Transaction.deserialize (G := G1) buf = none ↔ EmptyRing buf := by
  have hbody : Transaction.deserialize (G := G1) buf = none ↔
      Transaction.deserializeBody (G := G1) buf = none := by
    unfold Transaction.deserialize
    split
    · rename_i h
      simp [h]
    · rename_i h
      simp [h]
    · rename_i h
      simp only [h, reduceCtorEq, iff_false]
      split <;> simp
  rw [hbody]
  obtain ⟨r, s, heq, hparse⟩ := deserializeHeader_parses (G := G1) buf
  cases r with
  | error e =>
      have herror : Transaction.deserializeBody (G := G1) buf = some (.error e, s) := bind_error heq
      simp only [herror, reduceCtorEq, false_iff]
      rintro ⟨headerB, proofsB, rest, tx, before, p, behind, before', rfl, hheader, -⟩
      rw [deserializeHeader_reads hheader] at heq
      cases heq
  | ok tx =>
      obtain ⟨headerB, rfl, hheader⟩ := hparse tx rfl
      obtain ⟨hforms, -, -, hnone⟩ := HeaderForm.payloads hheader
      have hpanic : Transaction.deserializeBody (G := G1) (headerB ++ s) = none ↔
          readProofs tx.payloads s = none := by
        have hpart : optionally tx.txType.HasPayloads (readProofs tx.payloads) tx.payloads s =
            none ↔ readProofs tx.payloads s = none := by
          unfold optionally
          split
          · exact Iff.rfl
          · rename_i hnot
            rw [(hnone hnot).2.2]
            exact Iff.rfl
        rw [Transaction.deserializeBody, bind_eq_none, heq, ← hpart]
        simp [bind_eq_none]
      rw [hpanic, readProofs_eq_none hforms]
      constructor
      · rintro ⟨before, p, behind, before', proofsB, rest, hsplit, hring, rfl, hproofs⟩
        exact ⟨headerB, proofsB, rest, tx, before, p, behind, before', rfl, hheader, hsplit, hring,
          hproofs⟩
      · rintro ⟨headerB', proofsB, rest, tx', before, p, behind, before', hbuf, hheader', hsplit,
          hring, hproofs⟩
        have hreads := deserializeHeader_reads hheader' (proofsB ++ rest)
        rw [← hbuf, heq] at hreads
        cases hreads
        exact ⟨before, p, behind, before', proofsB, rest, hsplit, hring, rfl, hproofs⟩

/-- The parser returns, with a transaction or an error, on all inputs but those
with an empty ring. -/
theorem deserialize_returns_iff (buf : List UInt8) :
    Transaction.deserialize (G := G1) buf ≠ none ↔ ¬EmptyRing buf :=
  not_congr deserialize_eq_none

/-- A transfer with one payload of ring power 64, up to where its proof would
start. -/
def emptyRingTransfer : List UInt8 :=
  [1, 0, 0, 3, 0] ++ List.replicate 32 0 ++ [1] ++ ([0] ++ List.replicate 32 0 ++ [0] ++
    List.replicate 145 0) ++ ([64, 1, 0] ++ (List.replicate 31 0 ++ [1, 0]) ++ List.replicate 32 0)

theorem deserialize_emptyRingTransfer :
    Transaction.deserialize (G := G1) emptyRingTransfer = none := by
  decide +kernel

end Panics

end DirtybirdMiner.Block.TransactionCodec
