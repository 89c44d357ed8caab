import DirtybirdMiner.Block.MiniBlocks
import DirtybirdMiner.Block.TransactionCodec

/-!
Blocks and their byte form, from `block/src/block.rs`: the only transaction that a
block holds in full is the one of the miner, and its last miniblock is bound to
everything before it by a hash.
-/

set_option linter.dupNamespace false

namespace DirtybirdMiner.Block.Blocks

open DirtybirdMiner.Lib
open DirtybirdMiner.Lib.Bytes
open DirtybirdMiner.Lib.Programs
open DirtybirdMiner.Lib.Programs.Prog
open DirtybirdMiner.Lib.Readers
open DirtybirdMiner.Bn256.Points
open DirtybirdMiner.Crypto.Statements (PointCodec advance advance_append)
open DirtybirdMiner.Block.MiniBlocks (MiniBlock miniblockSize)
open DirtybirdMiner.Block.Transactions
open DirtybirdMiner.Block.TransactionForms
open DirtybirdMiner.Block.TransactionCodec

structure Block (G : Type) where
  majorVersion : UInt64
  minorVersion : UInt64
  timestamp : UInt64
  height : UInt64
  minerTx : Transaction G
  proof : FixedBytes 32
  tips : List (FixedBytes 32)
  miniblocks : List MiniBlock
  txHashes : List (FixedBytes 32)
deriving DecidableEq

section Functions

variable {G : Type} [PointCodec G] (gravitonSum sha3256 : List UInt8 → FixedBytes 32)

/-- The miniblocks that are written. -/
def Block.writtenMiniblocks (b : Block G) (skipLastMiniblock : Bool) : List MiniBlock :=
  if b.miniblocks = [] then []
  else b.miniblocks.take
    (if skipLastMiniblock then b.miniblocks.length - 1 else b.miniblocks.length)

/-- `none` is a panic, in the transaction of the miner. -/
def Block.serializeInner (b : Block G) (skipLastMiniblock : Bool) : Option (List UInt8) := do
  let minerTx ← b.minerTx.serialize gravitonSum
  let miniblocks := b.writtenMiniblocks skipLastMiniblock
  some (Uvarint.encode b.majorVersion ++ (Uvarint.encode b.minorVersion ++
    (beBytes 8 b.timestamp.toNat ++ (Uvarint.encode b.height ++ (minerTx ++ (b.proof.1 ++
    (Uvarint.encode (UInt64.ofNat b.tips.length) ++ (b.tips.flatMap Subtype.val ++
    (Uvarint.encode (UInt64.ofNat miniblocks.length) ++ (miniblocks.flatMap MiniBlocks.serialize ++
    (Uvarint.encode (UInt64.ofNat b.txHashes.length) ++
    b.txHashes.flatMap Subtype.val)))))))))))

def Block.serialize (b : Block G) : Option (List UInt8) := b.serializeInner gravitonSum false

def Block.serializeWithoutLastMiniblock (b : Block G) : Option (List UInt8) :=
  b.serializeInner gravitonSum true

def hexDigit (n : Nat) : Char := "0123456789abcdef".toList.getD n '0'

/-- `hex::encode`. -/
def hexEncode (bytes : List UInt8) : String :=
  String.ofList (bytes.flatMap fun b => [hexDigit (b.toNat / 16), hexDigit (b.toNat % 16)])

def Block.verifyMiniblocksHashcheck (b : Block G) : Option (Except String Unit) :=
  match b.miniblocks.getLast? with
  | none => some (.error "corrupted block")
  | some last =>
      if ¬last.highDiff then some (.error "corrupted block")
      else if ¬last.final then some (.error "corrupted block")
      else do
        let bytes ← b.serializeWithoutLastMiniblock gravitonSum
        let blockHeaderHash := sha3256 bytes
        if last.keyHash ≠ blockHeaderHash.1.take 16 then
          some (.error ("MiniBlock has corrupted header expected " ++ hexEncode blockHeaderHash.1 ++
            " actual " ++ hexEncode last.keyHash))
        else some (.ok ())

/-- A varint of at most so many bytes, any number for zero. -/
def takeVarint (maxBytes : Nat) : Reader String UInt64 := do
  let (v, n) := readUvarint (← get)
  if n = 0 ∨ (maxBytes ≠ 0 ∧ n > maxBytes) then fail "block: invalid varint"
  else do
    advance n
    pure v

/-- What stands before the transaction of the miner. -/
structure Head where
  majorVersion : UInt64
  minorVersion : UInt64
  timestamp : UInt64
  height : UInt64
deriving DecidableEq

def readHead : Reader String Head := do
  let majorVersion ← takeVarint 0
  let minorVersion ← takeVarint 0
  let timestamp ← takeOr "block: incomplete timestamp" 8
  let height ← takeVarint 0
  pure { majorVersion, minorVersion, timestamp := UInt64.ofNat (beValue timestamp.1), height }

/-- The transaction, which tells how many bytes it took. -/
def readMinerTx : Reader String (Transaction G) := do
  let r ← demand (Transaction.deserialize (← get))
  let (minerTx, consumed) ← ofExcept r
  advance consumed
  pure minerTx

def takeMiniblock : Reader String MiniBlock := do
  let bytes ← takeOr "block: truncated miniblock" miniblockSize
  ofExcept ((MiniBlocks.deserialize bytes.1).mapError MiniBlocks.MiniBlockError.message)

/-- What stands between the transaction and the hashes of the others. -/
structure Middle where
  proof : FixedBytes 32
  tips : List (FixedBytes 32)
  miniblocks : List MiniBlock
  txCount : UInt64

/-- Vectors are allocated with the counts that are read; a miniblock takes 56 bytes
of memory. -/
def readMiddle : Reader String Middle := do
  let proof ← takeOr "block: incomplete proof" 32
  let tipsCount ← takeVarint 1
  withCapacity 32 tipsCount.toNat
  let tips ← collect (takeOr "block: truncated tips" 32) tipsCount.toNat
  let miniblocksCount ← takeVarint 2
  withCapacity 56 miniblocksCount.toNat
  let miniblocks ← collect takeMiniblock miniblocksCount.toNat
  let txCount ← takeVarint 0
  pure { proof, tips, miniblocks, txCount }

def readTxHashes (txCount : UInt64) : Reader String (List (FixedBytes 32)) := do
  withCapacity 32 txCount.toNat
  collect (takeOr "block: truncated tx hashes" 32) txCount.toNat

def Block.deserializeBody : Reader String (Block G) := do
  let { majorVersion, minorVersion, timestamp, height } ← readHead
  let minerTx ← readMinerTx
  let { proof, tips, miniblocks, txCount } ← readMiddle
  let txHashes ← readTxHashes txCount
  pure
    { majorVersion, minorVersion, timestamp, height, minerTx, proof, tips, miniblocks, txHashes }

/-- `none` is a panic; what follows the block is not looked at. -/
def Block.deserialize (buf : List UInt8) : Option (Except String (Block G)) :=
  (Block.deserializeBody buf).map Prod.fst

end Functions

section Forms

def BoundedForm (maxBytes : Nat) (bytes : List UInt8) (v : UInt64) : Prop :=
  Uvarint.Form bytes v ∧ (maxBytes ≠ 0 → bytes.length ≤ maxBytes)

theorem takeVarint_reads {maxBytes : Nat} {bytes : List UInt8} {v : UInt64}
    (h : BoundedForm maxBytes bytes v) : Reads (takeVarint maxBytes) bytes v := by
  intro rest
  have hne := Uvarint.form_length_ne_zero h.1
  have hbound : ¬(bytes.length = 0 ∨ (maxBytes ≠ 0 ∧ bytes.length > maxBytes)) := by
    rintro (hzero | ⟨hmax, hlong⟩)
    · exact hne hzero
    · exact absurd hlong (not_lt.mpr (h.2 hmax))
  rw [takeVarint, get_bind_apply, readUvarint_of_form h.1]
  dsimp only
  rw [if_neg hbound]
  exact bind_ok (advance_append bytes rest)

theorem takeVarint_parses (maxBytes : Nat) :
    Parses (takeVarint maxBytes) (BoundedForm maxBytes) := by
  intro s
  cases hread : readUvarint s with
  | mk v n =>
      by_cases hbad : n = 0 ∨ (maxBytes ≠ 0 ∧ n > maxBytes)
      · have heq : takeVarint maxBytes s = some (.error "block: invalid varint", s) := by
          rw [takeVarint, get_bind_apply, hread]
          dsimp only
          rw [if_pos hbad]
          rfl
        exact .of_eq heq fun _ h => nomatch h
      · rw [not_or, not_and, not_lt] at hbad
        obtain ⟨bytes, rest, rfl, rfl, hform⟩ := form_of_readUvarint hread hbad.1
        refine .of_eq (takeVarint_reads ⟨hform, hbad.2⟩ rest) ?_
        rintro _ ⟨⟩
        exact ⟨bytes, rfl, hform, hbad.2⟩

theorem encode_boundedForm {n : Nat} {x : UInt64} (h : x.toNat < 128 ^ (n + 1)) :
    BoundedForm (n + 1) (Uvarint.encode x) x :=
  ⟨Uvarint.encode_form x, fun _ => Uvarint.encode_length_le h⟩

theorem encode_unboundedForm (x : UInt64) : BoundedForm 0 (Uvarint.encode x) x :=
  ⟨Uvarint.encode_form x, fun h => absurd rfl h⟩

theorem BoundedForm.lt {n : Nat} {bytes : List UInt8} {v : UInt64}
    (h : BoundedForm (n + 1) bytes v) : v.toNat < 128 ^ (n + 1) :=
  lt_of_lt_of_le h.1.lt (Nat.pow_le_pow_right (by decide) (h.2 (Nat.succ_ne_zero n)))

inductive HeadForm : List UInt8 → Head → Prop
  | mk {majorB minorB heightB : List UInt8} {majorVersion minorVersion height : UInt64}
      (timestamp : FixedBytes 8) (majorForm : BoundedForm 0 majorB majorVersion)
      (minorForm : BoundedForm 0 minorB minorVersion) (heightForm : BoundedForm 0 heightB height) :
      HeadForm (majorB ++ (minorB ++ (timestamp.1 ++ heightB)))
        { majorVersion, minorVersion, timestamp := UInt64.ofNat (beValue timestamp.1), height }

def MiniBlockForm (bytes : List UInt8) (mbl : MiniBlock) : Prop :=
  bytes.length = miniblockSize ∧ MiniBlocks.deserialize bytes = .ok mbl

inductive MiddleForm : List UInt8 → Middle → Prop
  | mk {tipsCountB tipsB miniblocksCountB miniblocksB txCountB : List UInt8}
      {proof : FixedBytes 32} {tipsCount miniblocksCount txCount : UInt64}
      {tips : List (FixedBytes 32)} {miniblocks : List MiniBlock}
      (tipsCountForm : BoundedForm 1 tipsCountB tipsCount)
      (tipsForm : Row (fun bytes tip => bytes = tip.1) tipsB tips)
      (tipsLength : tips.length = tipsCount.toNat)
      (miniblocksCountForm : BoundedForm 2 miniblocksCountB miniblocksCount)
      (miniblocksForm : Row MiniBlockForm miniblocksB miniblocks)
      (miniblocksLength : miniblocks.length = miniblocksCount.toNat)
      (txCountForm : BoundedForm 0 txCountB txCount) :
      MiddleForm (proof.1 ++ (tipsCountB ++ (tipsB ++ (miniblocksCountB ++ (miniblocksB ++
        txCountB))))) { proof, tips, miniblocks, txCount }

theorem readHead_parses : Parses readHead HeadForm := by
  refine (takeVarint_parses 0).bind fun _ major hmajor => ?_
  refine (takeVarint_parses 0).bind fun _ minor hminor => ?_
  refine (parses_takeOr _ 8).bind fun _ timestamp htimestamp => ?_
  subst htimestamp
  refine (takeVarint_parses 0).bind fun _ height hheight => parses_pure ?_
  rw [List.append_nil]
  exact .mk timestamp hmajor hminor hheight

theorem readHead_reads {bytes : List UInt8} {head : Head} (h : HeadForm bytes head) :
    Reads readHead bytes head := by
  cases h with
  | mk timestamp majorForm minorForm heightForm =>
      refine (takeVarint_reads majorForm).bind ((takeVarint_reads minorForm).bind ?_)
      exact (reads_takeOr _ timestamp).bind ((takeVarint_reads heightForm).last (reads_pure _))

theorem takeMiniblock_parses : Parses takeMiniblock MiniBlockForm := by
  refine (parses_takeOr _ miniblockSize).bind fun _ bytes hbytes => ?_
  subst hbytes
  cases hmbl : MiniBlocks.deserialize bytes.1 with
  | error e => exact parses_fail _
  | ok mbl =>
      refine parses_pure ?_
      rw [List.append_nil]
      exact ⟨bytes.2, hmbl⟩

theorem takeMiniblock_reads {bytes : List UInt8} {mbl : MiniBlock} (h : MiniBlockForm bytes mbl) :
    Reads takeMiniblock bytes mbl := by
  refine (reads_takeOr _ ⟨bytes, h.1⟩).last ?_
  rw [h.2]
  exact reads_pure mbl

theorem readMiddle_parses : Parses readMiddle MiddleForm := by
  refine (parses_takeOr _ 32).bind fun _ proof hproof => ?_
  subst hproof
  refine (takeVarint_parses 1).bind fun _ tipsCount htipsCount => ?_
  have htips := htipsCount.lt
  refine (parses_withCapacity (by omega)).bind fun _ _ hnil => ?_
  subst hnil
  refine (parses_collect (parses_takeOr _ 32) _).bind fun _ tips htipsRow => ?_
  refine (takeVarint_parses 2).bind fun _ miniblocksCount hcount => ?_
  have hminiblocks := hcount.lt
  refine (parses_withCapacity (by omega)).bind fun _ _ hnil => ?_
  subst hnil
  refine (parses_collect takeMiniblock_parses _).bind fun _ miniblocks hrow => ?_
  refine (takeVarint_parses 0).bind fun _ txCount htxCount => parses_pure ?_
  simp only [List.nil_append, List.append_nil]
  exact .mk htipsCount htipsRow.2 htipsRow.1 hcount hrow.2 hrow.1 htxCount

theorem readMiddle_reads {bytes : List UInt8} {middle : Middle} (h : MiddleForm bytes middle) :
    Reads readMiddle bytes middle := by
  cases h with
  | @mk _ _ _ _ _ proof _ _ _ _ _ tipsCountForm tipsForm tipsLength miniblocksCountForm
      miniblocksForm miniblocksLength txCountForm =>
      have htips := tipsCountForm.lt
      have hminiblocks := miniblocksCountForm.lt
      refine (reads_takeOr _ proof).bind ((takeVarint_reads tipsCountForm).bind ?_)
      refine (reads_withCapacity (by omega)).skip ?_
      rw [← tipsLength]
      refine (tipsForm.reads fun _ tip htip => by rw [htip]; exact reads_takeOr _ tip).bind ?_
      refine (takeVarint_reads miniblocksCountForm).bind ((reads_withCapacity (by omega)).skip ?_)
      rw [← miniblocksLength]
      refine (miniblocksForm.reads fun _ _ => takeMiniblock_reads).bind ?_
      exact (takeVarint_reads txCountForm).last (reads_pure _)

end Forms

section RoundTrip

/-- Blocks that are written: the counts of tips and miniblocks fit their varints,
and a vector of hashes has fewer than `2 ^ 58` elements. -/
structure Block.WellFormed (b : Block G1) : Prop where
  miner : TransactionCodec.WellFormed (· ≠ .infinity) b.minerTx
  trails : b.minerTx.txType.MayTrail
  tips_length : b.tips.length ≤ 127
  miniblocks_length : b.miniblocks.length ≤ 16383
  miniblocks_wellFormed : ∀ mbl ∈ b.miniblocks, MiniBlocks.WellFormed mbl
  txHashes_length : b.txHashes.length < 2 ^ 58

/-- The block without its last miniblock. -/
def Block.withoutLast {G : Type} (b : Block G) : Block G :=
  { b with miniblocks := b.miniblocks.dropLast }

theorem writtenMiniblocks_false {G : Type} (b : Block G) :
    b.writtenMiniblocks false = b.miniblocks := by
  unfold Block.writtenMiniblocks
  split
  · rename_i hnil
    rw [hnil]
  · exact List.take_length

theorem writtenMiniblocks_true {G : Type} (b : Block G) :
    b.writtenMiniblocks true = b.miniblocks.dropLast := by
  unfold Block.writtenMiniblocks
  split
  · rename_i hnil
    rw [hnil]
    rfl
  · exact List.dropLast_eq_take.symm

theorem serializeWithoutLastMiniblock_eq {G : Type} [PointCodec G] (b : Block G)
    (gravitonSum : List UInt8 → FixedBytes 32) :
    b.serializeWithoutLastMiniblock gravitonSum = b.withoutLast.serialize gravitonSum := by
  unfold Block.serializeWithoutLastMiniblock Block.serialize Block.serializeInner
  rw [writtenMiniblocks_true, writtenMiniblocks_false]
  rfl

theorem readMinerTx_reads {bytes : List UInt8} {tx : Transaction G1}
    (h : ∀ rest, Transaction.deserialize (bytes ++ rest) = some (.ok (tx, bytes.length))) :
    Reads readMinerTx bytes tx := by
  intro rest
  rw [readMinerTx, get_bind_apply, h rest, demand_some, Prog.pure_bind, ofExcept_ok,
    Prog.pure_bind]
  exact bind_ok (advance_append bytes rest)

theorem ofNat_timestamp (t : UInt64) : UInt64.ofNat (beValue (beBytes 8 t.toNat)) = t := by
  rw [beValue_beBytes, Nat.mod_eq_of_lt (lt_of_lt_of_eq t.toNat_lt (by decide)),
    UInt64.ofNat_toNat]

theorem Block.WellFormed.middle {b : Block G1} (h : b.WellFormed) :
    MiddleForm (b.proof.1 ++ (Uvarint.encode (UInt64.ofNat b.tips.length) ++
      (b.tips.flatMap Subtype.val ++ (Uvarint.encode (UInt64.ofNat b.miniblocks.length) ++
      (b.miniblocks.flatMap MiniBlocks.serialize ++
      Uvarint.encode (UInt64.ofNat b.txHashes.length))))))
      { proof := b.proof, tips := b.tips, miniblocks := b.miniblocks
        txCount := UInt64.ofNat b.txHashes.length } := by
  have htips := h.tips_length
  have hcount := h.miniblocks_length
  have htoNat : ∀ {n : Nat}, n < 2 ^ 63 → (UInt64.ofNat n).toNat = n := by
    intro n hn
    rw [UInt64.toNat_ofNat']
    omega
  refine .mk (encode_boundedForm ?_) (row_of_good fun tip _ => rfl) ?_ (encode_boundedForm ?_)
    (row_of_good fun mbl hmbl => ?_) ?_ (encode_unboundedForm _)
  · rw [htoNat (by omega)]
    omega
  · rw [htoNat (by omega)]
  · rw [htoNat (by omega)]
    omega
  · have hwell := h.miniblocks_wellFormed mbl hmbl
    exact ⟨MiniBlocks.serialize_length hwell.keyHash_length, MiniBlocks.deserialize_serialize hwell⟩
  · rw [htoNat (by omega)]

/-- A well-formed block is written and read back. -/
theorem Block.WellFormed.roundTrip {b : Block G1} (h : b.WellFormed)
    (gravitonSum : List UInt8 → FixedBytes 32) :
    ∃ bytes, b.serialize gravitonSum = some bytes ∧ Block.deserialize bytes = some (.ok b) := by
  obtain ⟨minerB, hminer, -, hread⟩ := deserialize_of_wellFormed h.miner gravitonSum
  have hhashes := h.txHashes_length
  have hcount : (UInt64.ofNat b.txHashes.length).toNat = b.txHashes.length := by
    rw [UInt64.toNat_ofNat']
    omega
  have hhead := readHead_reads (.mk ⟨beBytes 8 b.timestamp.toNat, beBytes_length _ _⟩
    (encode_unboundedForm b.majorVersion) (encode_unboundedForm b.minorVersion)
    (encode_unboundedForm b.height))
  simp only [ofNat_timestamp] at hhead
  have htail : Reads (readTxHashes (UInt64.ofNat b.txHashes.length))
      (b.txHashes.flatMap Subtype.val) b.txHashes := by
    refine (reads_withCapacity (by omega)).skip ?_
    rw [hcount]
    exact reads_collect fun hash _ => reads_takeOr _ hash
  obtain ⟨bytes, hbytes, hreads⟩ : ∃ bytes, b.serialize gravitonSum = some bytes ∧
      Reads Block.deserializeBody bytes b := by
    refine ⟨_, ?_, hhead.bind ((readMinerTx_reads (hread h.trails)).bind
      ((readMiddle_reads h.middle).bind (htail.last (reads_pure _))))⟩
    rw [Block.serialize, Block.serializeInner, hminer, writtenMiniblocks_false]
    simp only [Option.bind_eq_bind, Option.bind_some, List.append_assoc]
  refine ⟨bytes, hbytes, ?_⟩
  have hbody := hreads []
  rw [List.append_nil] at hbody
  rw [Block.deserialize, hbody]
  rfl

theorem Block.WellFormed.withoutLast {b : Block G1} (h : b.WellFormed) :
    b.withoutLast.WellFormed where
  miner := h.miner
  trails := h.trails
  tips_length := h.tips_length
  miniblocks_length := by
    have := h.miniblocks_length
    simp only [Block.withoutLast, List.length_dropLast]
    omega
  miniblocks_wellFormed := fun mbl hmbl =>
    h.miniblocks_wellFormed mbl (List.mem_of_mem_dropLast hmbl)
  txHashes_length := h.txHashes_length

/-- What passes the check has the start of the hash in its last miniblock. -/
theorem hashcheck_eq_ok {b : Block G1} {gravitonSum sha3256 : List UInt8 → FixedBytes 32}
    (h : b.verifyMiniblocksHashcheck gravitonSum sha3256 = some (.ok ())) :
    ∃ last bytes, b.miniblocks.getLast? = some last ∧
      b.serializeWithoutLastMiniblock gravitonSum = some bytes ∧
      last.keyHash = (sha3256 bytes).1.take 16 := by
  unfold Block.verifyMiniblocksHashcheck at h
  split at h
  · cases h
  rename_i last hlast
  split at h
  · cases h
  split at h
  · cases h
  cases hbytes : b.serializeWithoutLastMiniblock gravitonSum with
  | none =>
      rw [hbytes] at h
      cases h
  | some bytes =>
      rw [hbytes, Option.bind_eq_bind, Option.bind_some] at h
      dsimp only at h
      split at h
      · cases h
      · rename_i hkey
        exact ⟨last, bytes, hlast, rfl, not_not.mp hkey⟩

/-- Two blocks are the same if they are without their last miniblocks and these are. -/
theorem eq_of_withoutLast {b b' : Block G1} {last : MiniBlock} (h : b.withoutLast = b'.withoutLast)
    (hlast : b.miniblocks.getLast? = some last) (hlast' : b'.miniblocks.getLast? = some last) :
    b = b' := by
  have hminiblocks : b.miniblocks = b'.miniblocks := by
    rw [← List.dropLast_append_getLast? last hlast, ← List.dropLast_append_getLast? last hlast',
      show b.miniblocks.dropLast = b'.miniblocks.dropLast from congrArg Block.miniblocks h]
  obtain ⟨⟩ := b
  obtain ⟨⟩ := b'
  simp_all [Block.withoutLast]

theorem readMinerTx_of_error {s : List UInt8} {e : String}
    (h : Transaction.deserialize (G := G1) s = some (.error e)) :
    readMinerTx (G := G1) s = some (.error e, s) := by
  rw [readMinerTx, get_bind_apply, h]
  rfl

/-- The transaction takes no more than there is. -/
theorem readMinerTx_of_ok {s : List UInt8} {tx : Transaction G1} {n : Nat}
    (h : Transaction.deserialize s = some (.ok (tx, n))) :
    readMinerTx s = some (.ok tx, s.drop n) := by
  have hn : n ≤ s.length := by
    obtain ⟨_, _, _, _, -, -, -, -, hn, -⟩ := deserialize_eq_ok h
    omega
  have hadvance : (advance n : Reader String Unit) s = some (.ok (), s.drop n) := if_pos hn
  rw [readMinerTx, get_bind_apply, h]
  exact bind_ok hadvance

theorem readMinerTx_eq_none {s : List UInt8} :
    readMinerTx (G := G1) s = none ↔ Transaction.deserialize (G := G1) s = none := by
  cases hread : Transaction.deserialize (G := G1) s with
  | none => exact iff_of_true (by rw [readMinerTx, get_bind_apply, hread]; rfl) rfl
  | some r =>
      refine iff_of_false ?_ (Option.some_ne_none r)
      cases r with
      | error e => simp [readMinerTx_of_error hread]
      | ok r => simp [readMinerTx_of_ok hread]

theorem readMinerTx_eq_ok {s s' : List UInt8} {tx : Transaction G1}
    (h : readMinerTx s = some (.ok tx, s')) :
    ∃ n, Transaction.deserialize s = some (.ok (tx, n)) ∧ s' = s.drop n := by
  cases hread : Transaction.deserialize (G := G1) s with
  | none =>
      rw [readMinerTx_eq_none.mpr hread] at h
      cases h
  | some r =>
      cases r with
      | error e =>
          rw [readMinerTx_of_error hread] at h
          cases h
      | ok r =>
          rw [readMinerTx_of_ok hread] at h
          cases h
          exact ⟨r.2, rfl, rfl⟩

/-- An accepted block holds a premine or coinbase transaction: any other would have
taken all that is left. -/
theorem minerTx_mayTrail {buf : List UInt8} {b : Block G1}
    (h : Block.deserialize buf = some (.ok b)) : b.minerTx.txType.MayTrail := by
  rw [Block.deserialize, Option.map_eq_some_iff] at h
  obtain ⟨⟨r, s⟩, hbody, rfl⟩ := h
  replace hbody := bind_eq_ok hbody
  obtain ⟨head, s₁, -, hbody⟩ := hbody
  replace hbody := bind_eq_ok hbody
  obtain ⟨minerTx, s₂, hminer, hbody⟩ := hbody
  replace hbody := bind_eq_ok hbody
  obtain ⟨middle, s₃, hmiddle, hbody⟩ := hbody
  replace hbody := bind_eq_ok hbody
  obtain ⟨txHashes, s₄, -, hbody⟩ := hbody
  cases hbody
  obtain ⟨n, hread, rfl⟩ := readMinerTx_eq_ok hminer
  obtain ⟨_, _, rest, _, hbuf, -, -, -, hn, htrail⟩ := deserialize_eq_ok hread
  refine htrail.resolve_left fun hrest => ?_
  -- Nothing is left for the proof of the block.
  subst hrest
  rw [hn, List.length_nil, Nat.sub_zero, List.drop_length] at hmiddle
  cases hmiddle

/-- Decoding undoes encoding, and the hash in the last miniblock binds the block: two
blocks that pass the check with the same last miniblock are the same or show two
strings whose hashes start with the same 16 bytes.  An accepted block holds a
premine or coinbase transaction. -/
theorem block_bound (gravitonSum sha3256 : List UInt8 → FixedBytes 32) :
    (∀ b : Block G1, b.WellFormed →
      ∃ bytes, b.serialize gravitonSum = some bytes ∧ Block.deserialize bytes = some (.ok b)) ∧
    (∀ b : Block G1, b.WellFormed → b.miniblocks ≠ [] →
      b.serializeWithoutLastMiniblock gravitonSum = b.withoutLast.serialize gravitonSum) ∧
    (∀ b b' : Block G1, b.WellFormed → b'.WellFormed →
      b.miniblocks.getLast? = b'.miniblocks.getLast? →
      b.verifyMiniblocksHashcheck gravitonSum sha3256 = some (.ok ()) →
      b'.verifyMiniblocksHashcheck gravitonSum sha3256 = some (.ok ()) → b ≠ b' →
      ∃ bytes bytes', b.serializeWithoutLastMiniblock gravitonSum = some bytes ∧
        b'.serializeWithoutLastMiniblock gravitonSum = some bytes' ∧ bytes ≠ bytes' ∧
        (sha3256 bytes).1.take 16 = (sha3256 bytes').1.take 16) ∧
    ∀ (buf : List UInt8) (b : Block G1), Block.deserialize buf = some (.ok b) →
      b.minerTx.txType = .premine ∨ b.minerTx.txType = .coinbase := by
  refine ⟨fun b hb => hb.roundTrip gravitonSum,
    fun b _ _ => serializeWithoutLastMiniblock_eq b gravitonSum, ?_, fun _ _ => minerTx_mayTrail⟩
  intro b b' hb hb' hsame hcheck hcheck' hne
  obtain ⟨last, bytes, hlast, hbytes, hkey⟩ := hashcheck_eq_ok hcheck
  obtain ⟨last', bytes', hlast', hbytes', hkey'⟩ := hashcheck_eq_ok hcheck'
  obtain rfl : last = last' := by
    rw [hlast, hlast'] at hsame
    exact Option.some.inj hsame
  refine ⟨bytes, bytes', hbytes, hbytes', ?_, by rw [← hkey, hkey']⟩
  rintro rfl
  -- The common string is read back as both blocks without their last miniblocks.
  obtain ⟨_, hwritten, hread⟩ := hb.withoutLast.roundTrip gravitonSum
  obtain ⟨_, hwritten', hread'⟩ := hb'.withoutLast.roundTrip gravitonSum
  rw [← serializeWithoutLastMiniblock_eq, hbytes] at hwritten
  rw [← serializeWithoutLastMiniblock_eq, hbytes'] at hwritten'
  cases hwritten
  cases hwritten'
  rw [hread] at hread'
  have heq : b.withoutLast = b'.withoutLast := Except.ok.inj (Option.some.inj hread')
  exact hne (eq_of_withoutLast heq hlast hlast')

/-- A block with a coinbase transaction and nothing else. -/
def coinbaseBlock : Block G1 where
  majorVersion := 1
  minorVersion := 1
  timestamp := 0
  height := 7
  minerTx := { txType := .coinbase }
  proof := zeroBytes 32
  tips := [zeroBytes 32]
  miniblocks := []
  txHashes := []

theorem coinbaseBlock_wellFormed : coinbaseBlock.WellFormed where
  miner := {
    version_eq := rfl
    value_eq := fun _ => rfl
    miner_eq := fun _ => rfl
    signature_eq := fun _ => ⟨rfl, rfl⟩
    transfer_eq := fun _ => ⟨rfl, rfl, rfl⟩
    scdata_eq := fun _ => rfl
    payloads_ne := fun hhas => absurd hhas (by decide)
    payloads_good := fun p hp => by cases hp
    payloads_length := by decide
    scdata_length := by decide
    scdata_canonical := fun hsc => by cases hsc }
  trails := .inr rfl
  tips_length := by decide
  miniblocks_length := by decide
  miniblocks_wellFormed := fun mbl hmbl => by cases hmbl
  txHashes_length := by decide

theorem block_bound_coinbaseBlock :
    ∃ bytes, coinbaseBlock.serialize (fun _ => zeroBytes 32) = some bytes ∧
      Block.deserialize bytes = some (.ok coinbaseBlock) :=
  (block_bound (fun _ => zeroBytes 32) fun _ => zeroBytes 32).1 _ coinbaseBlock_wellFormed

end RoundTrip

section Panics

/-- A block that is well formed up to a number of transaction hashes for which no
vector can be allocated. -/
def HugeCount (buf : List UInt8) : Prop :=
  ∃ (headB s middleB rest : List UInt8) (head : Head) (tx : Transaction G1) (n : Nat)
    (middle : Middle), buf = headB ++ s ∧ HeadForm headB head ∧
      Transaction.deserialize s = some (.ok (tx, n)) ∧ s.drop n = middleB ++ rest ∧
      MiddleForm middleB middle ∧ 2 ^ 58 ≤ middle.txCount.toNat

theorem readTxHashes_eq_none {txCount : UInt64} {s : List UInt8} :
    readTxHashes txCount s = none ↔ 2 ^ 58 ≤ txCount.toNat := by
  rcases lt_or_ge txCount.toNat (2 ^ 58) with hsmall | hlarge
  · refine iff_of_false ?_ (not_le.mpr hsmall)
    rw [readTxHashes, withCapacity, if_pos (by omega)]
    exact (parses_collect (parses_takeOr _ 32) _).ne_none s
  · refine iff_of_true ?_ hlarge
    rw [readTxHashes, withCapacity, if_neg (by omega)]
    rfl

theorem tail_eq_none {s : List UInt8} {f : Middle → List (FixedBytes 32) → Block G1} :
    (readMiddle >>= fun middle => readTxHashes middle.txCount >>= fun txHashes =>
      pure (f middle txHashes) : Reader String (Block G1)) s = none ↔
    ∃ middleB middle rest, s = middleB ++ rest ∧ MiddleForm middleB middle ∧
      2 ^ 58 ≤ middle.txCount.toNat := by
  rw [readMiddle_parses.bind_eq_none fun _ _ => readMiddle_reads]
  simp only [bind_eq_none, readTxHashes_eq_none, pure_apply, reduceCtorEq, and_false,
    exists_false, or_false]

/-- Where a panic comes from: the transaction of the miner or the number of hashes. -/
theorem block_eq_none {buf : List UInt8} :
    Block.deserialize (G := G1) buf = none ↔
      (∃ headB head s, buf = headB ++ s ∧ HeadForm headB head ∧
        Transaction.deserialize (G := G1) s = none) ∨ HugeCount buf := by
  rw [Block.deserialize, Option.map_eq_none_iff, Block.deserializeBody,
    readHead_parses.bind_eq_none fun _ _ => readHead_reads]
  constructor
  · rintro ⟨headB, head, s, rfl, hhead, hnone⟩
    rw [bind_eq_none, readMinerTx_eq_none] at hnone
    rcases hnone with hnone | ⟨tx, s', hminer, hnone⟩
    · exact .inl ⟨headB, head, s, rfl, hhead, hnone⟩
    · obtain ⟨n, hread, rfl⟩ := readMinerTx_eq_ok hminer
      obtain ⟨middleB, middle, rest, hdrop, hmiddle, hcount⟩ := tail_eq_none.mp hnone
      exact .inr ⟨headB, s, middleB, rest, head, tx, n, middle, rfl, hhead, hread, hdrop, hmiddle,
        hcount⟩
  · rintro (⟨headB, head, s, rfl, hhead, hnone⟩ |
      ⟨headB, s, middleB, rest, head, tx, n, middle, rfl, hhead, hread, hdrop, hmiddle, hcount⟩)
    · exact ⟨headB, head, s, rfl, hhead, bind_eq_none.mpr (.inl (readMinerTx_eq_none.mpr hnone))⟩
    · refine ⟨headB, head, s, rfl, hhead, bind_eq_none.mpr (.inr ⟨tx, _, readMinerTx_of_ok hread,
        tail_eq_none.mpr ⟨middleB, middle, rest, hdrop, hmiddle, hcount⟩⟩)⟩

/-- A block with a coinbase transaction, no tips and no miniblocks, up to the number
of hashes. -/
def beforeCount : List UInt8 :=
  [1, 1] ++ List.replicate 8 0 ++ [0] ++ ([1, 0, 0, 2] ++ List.replicate 33 0) ++
    List.replicate 32 0 ++ [0, 0]

/-- One hash more than fit a vector: `2 ^ 58` of them, 32 bytes each. -/
def hugeBlock : List UInt8 := beforeCount ++ [128, 128, 128, 128, 128, 128, 128, 128, 4]

end Panics

end DirtybirdMiner.Block.Blocks
