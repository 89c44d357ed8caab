import DirtybirdMiner.Args.Canonical
import DirtybirdMiner.Block.Transactions

/-!
The format of transactions.  Every part has a form, a relation between bytes and
what they stand for; the parser takes exactly the forms, and the serializer writes
one of them.
-/

namespace DirtybirdMiner.Block.TransactionForms

open DirtybirdMiner.Lib
open DirtybirdMiner.Lib.Bytes
open DirtybirdMiner.Lib.Programs
open DirtybirdMiner.Lib.Programs.Prog
open DirtybirdMiner.Lib.Readers
open DirtybirdMiner.Args.Encoding
open DirtybirdMiner.Args.Arguments
open DirtybirdMiner.Args.Extents
open DirtybirdMiner.Args.Canonical
open DirtybirdMiner.Crypto.Statements (PointCodec compress advance countOf powerOf2 powerOf2_two_pow
  powerOf2_zero ringSizeOf Statement StatementForm PointForm advance_append headD_eq
  toNat_pos_of_ne_zero)
open DirtybirdMiner.Crypto.Proofs
open DirtybirdMiner.Block.Transactions

section Cursor

theorem readUvarint_of_form {bytes : List UInt8} {v : UInt64} (h : Uvarint.Form bytes v)
    (rest : List UInt8) : readUvarint (bytes ++ rest) = (v, bytes.length) := by
  rw [readUvarint, Uvarint.decode_of_form h]

theorem form_of_readUvarint {buf : List UInt8} {v : UInt64} {n : Nat}
    (h : readUvarint buf = (v, n)) (hn : n ≠ 0) :
    ∃ bytes rest, buf = bytes ++ rest ∧ n = bytes.length ∧ Uvarint.Form bytes v := by
  unfold readUvarint at h
  split at h
  · cases h
    exact absurd rfl hn
  · rename_i r hdecode
    subst h
    exact Uvarint.form_of_decode hdecode

theorem rv_reads {bytes : List UInt8} {v : UInt64} (h : Uvarint.Form bytes v) :
    Reads rv bytes v := by
  intro rest
  have hne : bytes.length ≠ 0 := Uvarint.form_length_ne_zero h
  rw [rv, get_bind_apply, readUvarint_of_form h]
  dsimp only
  rw [if_neg hne]
  exact bind_ok (advance_append bytes rest)

theorem rv_parses : Parses rv Uvarint.Form := by
  intro s
  cases hread : readUvarint s with
  | mk v n =>
      by_cases hn : n = 0
      · have heq : rv s = some (.error "transaction: invalid varint", s) := by
          rw [rv, get_bind_apply, hread, hn]
          rfl
        exact .of_eq heq fun _ h => nomatch h
      · obtain ⟨bytes, rest, rfl, -, hform⟩ := form_of_readUvarint hread hn
        refine .of_eq (rv_reads hform rest) ?_
        rintro _ ⟨⟩
        exact ⟨bytes, rfl, hform⟩

theorem takeByte_parses : Parses takeByte fun bytes b => bytes = [b] := by
  refine (parses_takeOr _ 1).bind fun bytes b hb => parses_pure ?_
  rw [List.append_nil, hb]
  exact headD_eq b

theorem takeByte_reads (b : UInt8) : Reads takeByte [b] b :=
  (reads_takeOr _ ⟨[b], rfl⟩).last (reads_pure _)

end Cursor

section Forms

variable {G : Type} [PointCodec G]

/-- The header of a payload, with the ring power of its statement. -/
inductive PayloadForm : List UInt8 → AssetPayload G → Prop
  | mk {power rpcType : UInt8} {burnB rpcPayload statementB : List UInt8} {burnValue : UInt64}
      {scid : FixedBytes 32} {statement : Statement G} (burnForm : Uvarint.Form burnB burnValue)
      (rpcLength : rpcPayload.length = payloadLimit)
      (statementForm : StatementForm power statementB statement) :
      PayloadForm (burnB ++ (scid.1 ++ ([rpcType] ++ (rpcPayload ++ statementB))))
        { scid, burnValue, rpcType, rpcPayload, statement, proof := none }

inductive TransferForm : List UInt8 → Transfer G → Prop
  | mk {heightB countB rowB : List UInt8} {height count : UInt64} {blid : FixedBytes 32}
      {payloads : List (AssetPayload G)} (heightForm : Uvarint.Form heightB height)
      (countForm : Uvarint.Form countB count) (some : 1 ≤ count)
      (rowForm : Row PayloadForm rowB payloads) (rowLength : payloads.length = count.toNat) :
      TransferForm (heightB ++ (blid.1 ++ (countB ++ rowB))) { height, blid, payloads }

inductive ScdataForm : List UInt8 → List UInt8 → Prop
  | mk {lengthB raw : List UInt8} {length : UInt64} {args : List Argument}
      (lengthForm : Uvarint.Form lengthB length) (rawLength : raw.length = length.toNat)
      (accepted : unmarshalBinaryExact raw = some (.ok args)) :
      ScdataForm (lengthB ++ raw) (marshalBinary args)

inductive SignatureForm : List UInt8 → FixedBytes 32 × FixedBytes 32 → Prop
  | mk (c s : FixedBytes 32) : SignatureForm (c.1 ++ s.1) (c, s)

/-- Everything but the proofs. -/
inductive HeaderForm : List UInt8 → Transaction G → Prop
  | mk {versionB sourceB destB typeB valueB minerB signatureB transferB scdataB : List UInt8}
      {sourceNetwork destNetwork value : UInt64} {txType : TransactionType}
      {minerAddress : FixedBytes 33} {c s : FixedBytes 32} {t : Transfer G} {scdata : List UInt8}
      (versionForm : Uvarint.Form versionB 1) (sourceForm : Uvarint.Form sourceB sourceNetwork)
      (destForm : Uvarint.Form destB destNetwork)
      (typeForm : Uvarint.Form typeB txType.toU64)
      (valueForm : Optionally txType.HasValue Uvarint.Form 0 valueB value)
      (minerForm : Optionally txType.HasMiner (fun bytes a => bytes = a.1) (zeroBytes 33) minerB
        minerAddress)
      (signatureForm : Optionally (txType = .registration) SignatureForm
        (zeroBytes 32, zeroBytes 32) signatureB (c, s))
      (transferForm : Optionally txType.HasPayloads TransferForm {} transferB t)
      (scdataForm : Optionally (txType = .sc) ScdataForm [] scdataB scdata) :
      HeaderForm (versionB ++ (sourceB ++ (destB ++ (typeB ++ (valueB ++ (minerB ++ (signatureB ++
        (transferB ++ scdataB))))))))
        { version := 1, sourceNetwork, destNetwork, txType, value, minerAddress, c, s
          height := t.height, blid := t.blid, payloads := t.payloads, scdata }

/-- The proofs behind the header, one for each payload. -/
inductive ProofsForm : List (AssetPayload G) → List UInt8 → List (AssetPayload G) → Prop
  | nil : ProofsForm [] [] []
  | cons {p : AssetPayload G} {payloads payloads' : List (AssetPayload G)}
      {proofB restB : List UInt8} {count : Nat} {m : UInt8} {proof : Proof G}
      (counted : countOf p.statement.publickeylistPointers.length
        p.statement.bytesPerPublickey = some count)
      (power : powerOf2 count = some m) (proofForm : ProofForm m.toNat proofB proof)
      (rest : ProofsForm payloads restB payloads') :
      ProofsForm (p :: payloads) (proofB ++ restB) ({ p with proof := some proof } :: payloads')

theorem unmarshalHeaderStatement_parses :
    Parses AssetPayload.unmarshalHeaderStatement (PayloadForm (G := G)) := by
  refine rv_parses.bind fun _ burnValue hburn => ?_
  refine (parses_takeOr _ 32).bind fun _ scid hscid => ?_
  refine takeByte_parses.bind fun _ rpcType htype => ?_
  refine (parses_takeOr _ payloadLimit).bind fun _ rpcPayload hpayload => ?_
  refine Crypto.Statements.deserialize_parses.bind fun _ statement hstatement => parses_pure ?_
  subst hscid htype hpayload
  obtain ⟨power, hstatement⟩ := hstatement
  rw [List.append_nil]
  exact .mk hburn rpcPayload.2 hstatement

theorem unmarshalHeaderStatement_reads {bytes : List UInt8} {p : AssetPayload G}
    (h : PayloadForm bytes p) : Reads AssetPayload.unmarshalHeaderStatement bytes p := by
  cases h with
  | @mk power rpcType _ rpcPayload _ _ scid _ burnForm rpcLength statementForm =>
      refine (rv_reads burnForm).bind ((reads_takeOr _ scid).bind ((takeByte_reads rpcType).bind ?_))
      refine (reads_takeOr _ ⟨rpcPayload, rpcLength⟩).bind ?_
      exact (Crypto.Statements.deserialize_reads statementForm).last (reads_pure _)

theorem readTransfer_parses : Parses readTransfer (TransferForm (G := G)) := by
  refine rv_parses.bind fun _ height hheight => ?_
  refine (parses_takeOr _ 32).bind fun _ blid hblid => ?_
  subst hblid
  refine rv_parses.bind fun _ count hcount => ?_
  split
  · exact parses_fail _
  rename_i hsome
  refine (parses_collect unmarshalHeaderStatement_parses _).bind fun _ payloads hrow => ?_
  refine parses_pure ?_
  rw [List.append_nil]
  exact .mk hheight hcount (UInt64.not_lt.mp hsome) hrow.2 hrow.1

theorem readTransfer_reads {bytes : List UInt8} {t : Transfer G} (h : TransferForm bytes t) :
    Reads readTransfer bytes t := by
  cases h with
  | @mk _ _ _ _ _ blid _ heightForm countForm some rowForm rowLength =>
      refine (rv_reads heightForm).bind ((reads_takeOr _ blid).bind ((rv_reads countForm).bind ?_))
      rw [if_neg (UInt64.not_lt.mpr some), ← rowLength]
      exact (rowForm.reads fun _ _ => unmarshalHeaderStatement_reads).last (reads_pure _)

theorem readScdata_parses : Parses readScdata ScdataForm := by
  refine rv_parses.bind fun _ length hlength => ?_
  refine (parses_takeOr _ _).bind fun _ raw hraw => ?_
  subst hraw
  obtain ⟨r, hr⟩ := Option.isSome_iff_exists.mp (unmarshalBinaryExact_isSome raw.1)
  rw [hr, demand_some, Prog.pure_bind]
  cases r with
  | error e => exact parses_fail _
  | ok args =>
      refine parses_pure ?_
      rw [List.append_nil]
      exact .mk hlength raw.2 hr

theorem readScdata_reads {bytes scdata : List UInt8} (h : ScdataForm bytes scdata) :
    Reads readScdata bytes scdata := by
  cases h with
  | @mk _ raw _ _ lengthForm rawLength accepted =>
      refine (rv_reads lengthForm).bind ((reads_takeOr _ ⟨raw, rawLength⟩).last ?_)
      rw [accepted, demand_some, Prog.pure_bind]
      exact reads_pure _

theorem readSignature_parses : Parses readSignature SignatureForm := by
  refine (parses_takeOr _ 32).bind fun _ c hc => ?_
  refine (parses_takeOr _ 32).bind fun _ s hs => parses_pure ?_
  subst hc hs
  rw [List.append_nil]
  exact .mk c s

theorem readSignature_reads {bytes : List UInt8} {cs : FixedBytes 32 × FixedBytes 32}
    (h : SignatureForm bytes cs) : Reads readSignature bytes cs := by
  cases h with
  | mk c s => exact (reads_takeOr _ c).bind ((reads_takeOr _ s).last (reads_pure _))

theorem deserializeHeader_parses :
    Parses Transaction.deserializeHeader (HeaderForm (G := G)) := by
  refine rv_parses.bind fun _ version hversion => ?_
  split
  · exact parses_fail _
  rename_i hone
  rw [not_not] at hone
  subst hone
  refine rv_parses.bind fun _ source hsource => ?_
  refine rv_parses.bind fun _ dest hdest => ?_
  refine rv_parses.bind fun _ v hv => ?_
  cases htype : TransactionType.fromU64 v with
  | error e =>
      intro s
      exact parses_fail e s
  | ok txType =>
      obtain rfl := TransactionType.fromU64_eq_ok htype
      rw [ofExcept_ok, Prog.pure_bind]
      refine (parses_optionally rv_parses 0).bind fun _ value hvalue => ?_
      refine (parses_optionally (parses_takeOr _ 33) (zeroBytes 33)).bind fun _ miner hminer => ?_
      refine (parses_optionally readSignature_parses _).bind fun _ cs hcs => ?_
      refine (parses_optionally readTransfer_parses {}).bind fun _ t ht => ?_
      refine (parses_optionally readScdata_parses []).bind fun _ scdata hscdata => parses_pure ?_
      rw [List.append_nil]
      exact .mk hversion hsource hdest hv hvalue hminer hcs ht hscdata

theorem deserializeHeader_reads {bytes : List UInt8} {tx : Transaction G}
    (h : HeaderForm bytes tx) : Reads Transaction.deserializeHeader bytes tx := by
  cases h with
  | @mk _ _ _ _ _ _ _ _ _ _ _ _ txType _ _ _ _ _ versionForm sourceForm destForm typeForm valueForm
      minerForm signatureForm transferForm scdataForm =>
      refine (rv_reads versionForm).bind ?_
      rw [if_neg (by simp)]
      refine (rv_reads sourceForm).bind ((rv_reads destForm).bind ((rv_reads typeForm).bind ?_))
      rw [TransactionType.fromU64_toU64, ofExcept_ok, Prog.pure_bind]
      refine (valueForm.reads fun _ _ => rv_reads).bind ?_
      refine (minerForm.reads fun bytes a ha => by rw [ha]; exact reads_takeOr _ a).bind ?_
      refine (signatureForm.reads fun _ _ => readSignature_reads).bind ?_
      refine (transferForm.reads fun _ _ => readTransfer_reads).bind ?_
      exact (scdataForm.reads fun _ _ => readScdata_reads).last (reads_pure _)

end Forms

section Proofs

variable {G : Type} [PointCodec G]

/-- The ring of a payload is counted by its pointers. -/
def Counted (p : AssetPayload G) (count : Nat) : Prop :=
  countOf p.statement.publickeylistPointers.length p.statement.bytesPerPublickey = some count

theorem StatementForm.ring {power : UInt8} {bytes : List UInt8} {s : Statement G}
    (h : StatementForm power bytes s) :
    s.ringSize = ringSizeOf power ∧
      countOf s.publickeylistPointers.length s.bytesPerPublickey = some (ringSizeOf power) := by
  cases h with
  | mk ring wide feesForm dForm pointersLength cForm cLength =>
      refine ⟨rfl, ?_⟩
      rw [countOf, if_neg wide, pointersLength,
        Nat.mul_div_cancel _ (toNat_pos_of_ne_zero wide)]

theorem PayloadForm.statement {bytes : List UInt8} {p : AssetPayload G} (h : PayloadForm bytes p) :
    p.rpcPayload.length = payloadLimit ∧ ∃ power bytes, StatementForm power bytes p.statement := by
  cases h with
  | mk burnForm rpcLength statementForm => exact ⟨rpcLength, _, _, statementForm⟩

theorem counted_of_form {bytes : List UInt8} {p : AssetPayload G} (h : PayloadForm bytes p) :
    ∃ power : UInt8, p.statement.ringSize = ringSizeOf power ∧ Counted p (ringSizeOf power) := by
  obtain ⟨-, power, _, hstatement⟩ := PayloadForm.statement h
  exact ⟨power, StatementForm.ring hstatement⟩

theorem powerOf2_ringSizeOf (power : UInt8) :
    powerOf2 (ringSizeOf power) = if ringSizeOf power = 0 then none else some power := by
  unfold ringSizeOf
  split
  · rw [powerOf2_two_pow, UInt8.ofNat_toNat, if_neg (Nat.two_pow_pos _).ne']
  · rw [powerOf2_zero, if_pos rfl]

theorem unmarshalProofs_parses {p : AssetPayload G} {count : Nat} {m : UInt8}
    (hcount : Counted p count) (hpower : powerOf2 count = some m) :
    Parses p.unmarshalProofs fun bytes p' =>
      ∃ proof, ProofForm m.toNat bytes proof ∧ p' = { p with proof := some proof } := by
  have hm := m.toNat_lt
  unfold AssetPayload.unmarshalProofs
  rw [show countOf _ _ = _ from hcount, demand_some, Prog.pure_bind, hpower, demand_some,
    Prog.pure_bind]
  refine (proof_parses (by omega)).bind fun bytes proof hproof => parses_pure ?_
  rw [List.append_nil]
  exact ⟨proof, hproof, rfl⟩

theorem unmarshalProofs_reads {p : AssetPayload G} {count : Nat} {m : UInt8}
    {bytes : List UInt8} {proof : Proof G} (hcount : Counted p count)
    (hpower : powerOf2 count = some m) (h : ProofForm m.toNat bytes proof) :
    Reads p.unmarshalProofs bytes { p with proof := some proof } := by
  have hm := m.toNat_lt
  unfold AssetPayload.unmarshalProofs
  rw [show countOf _ _ = _ from hcount, demand_some, Prog.pure_bind, hpower, demand_some,
    Prog.pure_bind]
  exact (proof_reads (by omega) h).last (reads_pure _)

theorem readProofs_reads {payloads payloads' : List (AssetPayload G)} {bytes : List UInt8}
    (h : ProofsForm payloads bytes payloads') : Reads (readProofs payloads) bytes payloads' := by
  induction h with
  | nil => exact reads_pure []
  | cons counted power proofForm rest ih =>
      exact (unmarshalProofs_reads counted power proofForm).bind (ih.last (reads_pure _))

/-- What the proofs leave of a payload. -/
theorem readProofs_ok {payloads payloads' : List (AssetPayload G)} {s s' : List UInt8}
    (hforms : ∀ p ∈ payloads, ∃ bytes, PayloadForm bytes p)
    (h : readProofs payloads s = some (.ok payloads', s')) :
    ∃ bytes, s = bytes ++ s' ∧ ProofsForm payloads bytes payloads' := by
  induction payloads generalizing s payloads' with
  | nil =>
      cases h
      exact ⟨[], rfl, .nil⟩
  | cons p payloads ih =>
      rw [List.forall_mem_cons] at hforms
      obtain ⟨bytes, hform⟩ := hforms.1
      obtain ⟨power, -, hcount⟩ := counted_of_form hform
      replace h := bind_eq_ok h
      obtain ⟨p', s₁, hp, h⟩ := h
      replace h := bind_eq_ok h
      obtain ⟨rest, s₂, hrest, h⟩ := h
      cases h
      cases hpower : powerOf2 (ringSizeOf power) with
      | none =>
          unfold AssetPayload.unmarshalProofs at hp
          rw [show countOf _ _ = _ from hcount, demand_some, Prog.pure_bind, hpower] at hp
          cases hp
      | some m =>
          obtain ⟨r, s₁', heq, hparse⟩ := unmarshalProofs_parses hcount hpower s
          rw [hp] at heq
          cases heq
          obtain ⟨proofB, rfl, proof, hproof, rfl⟩ := hparse p' rfl
          obtain ⟨restB, rfl, hrestForm⟩ := ih hforms.2 hrest
          exact ⟨proofB ++ restB, (List.append_assoc _ _ _).symm,
            .cons hcount hpower hproof hrestForm⟩

/-- The loop over the proofs panics at a payload with an empty ring, if it gets
there. -/
theorem readProofs_eq_none {payloads : List (AssetPayload G)} {s : List UInt8}
    (hforms : ∀ p ∈ payloads, ∃ bytes, PayloadForm bytes p) :
    readProofs payloads s = none ↔
      ∃ before p behind before' bytes rest, payloads = before ++ p :: behind ∧
        p.statement.ringSize = 0 ∧ s = bytes ++ rest ∧ ProofsForm before bytes before' := by
  induction payloads generalizing s with
  | nil =>
      constructor
      · intro h
        cases h
      · rintro ⟨before, p, behind, -, -, -, hnil, -⟩
        exact absurd hnil (by simp)
  | cons p payloads ih =>
      rw [List.forall_mem_cons] at hforms
      obtain ⟨bytes, hform⟩ := hforms.1
      obtain ⟨power, hring, hcount⟩ := counted_of_form hform
      have hpower := powerOf2_ringSizeOf power
      by_cases hempty : ringSizeOf power = 0
      · have hnone : readProofs (p :: payloads) s = none := by
          unfold readProofs AssetPayload.unmarshalProofs
          rw [show countOf _ _ = _ from hcount, demand_some, Prog.pure_bind, hpower, if_pos hempty]
          rfl
        simp only [hnone, true_iff]
        exact ⟨[], p, payloads, [], [], s, rfl, hring.trans hempty, rfl, .nil⟩
      · rw [if_neg hempty] at hpower
        obtain ⟨r, s', heq, hparse⟩ := unmarshalProofs_parses hcount hpower s
        -- A decomposition starts with this payload, whose ring is not empty.
        have hskip : ∀ {before p' behind},
            p :: payloads = before ++ p' :: behind → p'.statement.ringSize = 0 →
            ∃ before₁, before = p :: before₁ ∧ payloads = before₁ ++ p' :: behind := by
          intro before p' behind hsplit hzero
          cases before with
          | nil =>
              obtain ⟨rfl, -⟩ := List.cons.inj hsplit
              exact absurd (hring.symm.trans hzero) hempty
          | cons q before₁ =>
              obtain ⟨rfl, hrest⟩ := List.cons.inj hsplit
              exact ⟨before₁, rfl, hrest⟩
        cases r with
        | error e =>
            have herror : readProofs (p :: payloads) s = some (.error e, s') := bind_error heq
            simp only [herror, reduceCtorEq, false_iff]
            rintro ⟨before, p', behind, before', proofsB, rest, hsplit, hzero, rfl, hproofs⟩
            obtain ⟨before₁, rfl, -⟩ := hskip hsplit hzero
            cases hproofs with
            | cons counted hpower' proofForm hrest =>
                rw [List.append_assoc, unmarshalProofs_reads counted hpower' proofForm] at heq
                cases heq
        | ok p₁ =>
            obtain ⟨proofB, rfl, proof, hproof, rfl⟩ := hparse p₁ rfl
            have hstep : readProofs (p :: payloads) (proofB ++ s') = none ↔
                readProofs payloads s' = none := by
              rw [readProofs, bind_eq_none, heq]
              simp [bind_eq_none]
            rw [hstep, ih hforms.2]
            constructor
            · rintro ⟨before, p', behind, before', proofsB, rest, rfl, hzero, rfl, hproofs⟩
              exact ⟨p :: before, p', behind, _, proofB ++ proofsB, rest, rfl, hzero,
                (List.append_assoc _ _ _).symm, .cons hcount hpower hproof hproofs⟩
            · rintro ⟨before, p', behind, before', proofsB, rest, hsplit, hzero, hs, hproofs⟩
              obtain ⟨before₁, rfl, hrest⟩ := hskip hsplit hzero
              cases hproofs with
              | @cons _ _ _ proofB' restB _ _ _ counted hpower' proofForm hrestForm =>
                  have hreads := unmarshalProofs_reads counted hpower' proofForm (restB ++ rest)
                  rw [← List.append_assoc, ← hs, heq] at hreads
                  cases hreads
                  exact ⟨before₁, p', behind, _, restB, rest, hrest, hzero, rfl, hrestForm⟩

end Proofs

end DirtybirdMiner.Block.TransactionForms
