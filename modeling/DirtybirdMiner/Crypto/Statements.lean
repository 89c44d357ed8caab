import DirtybirdMiner.Bn256.Points
import DirtybirdMiner.Lib.Readers
import DirtybirdMiner.Lib.Uvarint

/-!
The statement of a transfer and its byte form, from `crypto/src/statement.rs`,
with the cursor helpers of `crypto/src/read.rs`.  The points are those of any
group with the three byte forms.
-/

namespace DirtybirdMiner.Crypto.Statements

open DirtybirdMiner.Lib
open DirtybirdMiner.Lib.Bytes
open DirtybirdMiner.Lib.Programs
open DirtybirdMiner.Lib.Programs.Prog
open DirtybirdMiner.Lib.Readers
open DirtybirdMiner.Bn256.Points

/-- The byte forms of points. -/
class PointCodec (G : Type) where
  marshal : G → FixedBytes 64
  compress : G → FixedBytes 33
  decompress : List UInt8 → Except String G

instance : PointCodec G1 where
  marshal := G1.marshal
  compress := G1.compress
  decompress := G1.decompress

export PointCodec (marshal compress decompress)

section Cursor

/-- `*r = &r[n..]`. -/
def advance {ε : Type} (n : Nat) : Reader ε Unit := fun s =>
  if n ≤ s.length then some (.ok (), s.drop n) else none

def take (n : Nat) : Reader String (FixedBytes n) := takeOr "short read" n

/-- `take(r, 1)?[0]`. -/
def takeByte : Reader String UInt8 := do
  let b ← take 1
  pure (b.1.headD 0)

def takeG1 (G : Type) [PointCodec G] : Reader String G := do
  let b ← take 33
  ofExcept (decompress b.1)

def takeScalar : Reader String Nat := do
  let b ← take 32
  pure (beValue b.1)

def readUvarint : Reader String UInt64 := do
  match Uvarint.decode (← get) with
  | .error .incomplete => fail "varint: short read"
  | .error .overflow => fail "varint: overflow"
  | .ok (x, n) => do
      advance n
      pure x

/-- `to_32_be`. -/
def to32Be (x : Nat) : List UInt8 := beBytes 32 x

variable {G : Type} [PointCodec G]

def PointForm (bytes : List UInt8) (g : G) : Prop := bytes.length = 33 ∧ decompress bytes = .ok g

def ScalarForm (bytes : List UInt8) (x : Nat) : Prop := bytes.length = 32 ∧ x = beValue bytes

theorem headD_eq (b : FixedBytes 1) : b.1 = [b.1.headD 0] := by
  obtain ⟨bytes, hlen⟩ := b
  obtain ⟨c, rfl⟩ := List.length_eq_one_iff.mp hlen
  rfl

theorem takeByte_parses : Parses takeByte fun bytes b => bytes = [b] := by
  refine (parses_takeOr _ 1).bind fun bytes b hb => parses_pure ?_
  rw [List.append_nil, hb]
  exact headD_eq b

theorem takeByte_reads (b : UInt8) : Reads takeByte [b] b :=
  (reads_takeOr _ ⟨[b], rfl⟩).last (reads_pure _)

theorem takeG1_parses : Parses (takeG1 G) PointForm := by
  refine (parses_takeOr _ 33).bind fun bytes b hb => ?_
  subst hb
  cases hg : (decompress b.1 : Except String G) with
  | error e => exact parses_fail e
  | ok g =>
      refine parses_pure ?_
      rw [List.append_nil]
      exact ⟨b.2, hg⟩

theorem takeG1_reads {bytes : List UInt8} {g : G} (h : PointForm bytes g) :
    Reads (takeG1 G) bytes g := by
  refine (reads_takeOr _ ⟨bytes, h.1⟩).last ?_
  rw [h.2]
  exact reads_pure g

theorem takeScalar_parses : Parses takeScalar ScalarForm := by
  refine (parses_takeOr _ 32).bind fun bytes b hb => parses_pure ?_
  rw [List.append_nil, hb]
  exact ⟨b.2, rfl⟩

theorem takeScalar_reads {bytes : List UInt8} {x : Nat} (h : ScalarForm bytes x) :
    Reads takeScalar bytes x := by
  rw [h.2]
  exact (reads_takeOr _ ⟨bytes, h.1⟩).last (reads_pure _)

theorem to32Be_form {x : Nat} (h : x < 2 ^ 256) : ScalarForm (to32Be x) x := by
  refine ⟨beBytes_length 32 x, ?_⟩
  rw [to32Be, beValue_beBytes, Nat.mod_eq_of_lt (lt_of_lt_of_eq h (by decide))]

theorem ScalarForm.lt {bytes : List UInt8} {x : Nat} (h : ScalarForm bytes x) : x < 2 ^ 256 := by
  have := beValue_lt bytes
  rw [h.1] at this
  rw [h.2]
  exact lt_of_lt_of_eq this (by decide)

theorem advance_append {ε : Type} (bytes rest : List UInt8) :
    (advance bytes.length : Reader ε Unit) (bytes ++ rest) = some (.ok (), rest) := by
  simp [advance]

theorem readUvarint_reads {bytes : List UInt8} {x : UInt64} (h : Uvarint.Form bytes x) :
    Reads readUvarint bytes x := by
  intro rest
  rw [readUvarint, get_bind_apply, Uvarint.decode_of_form h]
  exact bind_ok (advance_append bytes rest)

theorem readUvarint_parses : Parses readUvarint Uvarint.Form := by
  intro s
  have hget : readUvarint s = (match Uvarint.decode s with
    | .error .incomplete => fail "varint: short read"
    | .error .overflow => fail "varint: overflow"
    | .ok (x, n) => advance n >>= fun _ => pure x : Reader String UInt64) s := rfl
  cases hdecode : Uvarint.decode s with
  | error e =>
      rw [hdecode] at hget
      cases e <;> exact .of_eq hget fun _ h => nomatch h
  | ok r =>
      obtain ⟨x, n⟩ := r
      obtain ⟨bytes, rest, rfl, rfl, hform⟩ := Uvarint.form_of_decode hdecode
      refine .of_eq (readUvarint_reads hform rest) ?_
      rintro _ ⟨⟩
      exact ⟨bytes, rfl, hform⟩

end Cursor

/-- The logarithm of a power of two; anything else fails the assertion. -/
def powerOf2 (n : Nat) : Option UInt8 :=
  if n = 2 ^ n.log2 then some (UInt8.ofNat n.log2) else none

theorem powerOf2_two_pow {m : Nat} : powerOf2 (2 ^ m) = some (UInt8.ofNat m) := by
  rw [powerOf2, Nat.log2_two_pow, if_pos rfl]

theorem powerOf2_zero : powerOf2 0 = none := by
  rw [powerOf2, Nat.log2_zero]
  rfl

structure Statement (G : Type) where
  ringSize : Nat
  cln : List G
  crn : List G
  bytesPerPublickey : UInt8
  publickeylistPointers : List UInt8
  publickeylist : List G
  c : List G
  d : G
  fees : UInt64
  roothash : FixedBytes 32
deriving DecidableEq

section Serialize

variable {G : Type} [PointCodec G]

/-- `len / width`, which fails for a width of zero. -/
def countOf (len : Nat) (width : UInt8) : Option Nat :=
  if width = 0 then none else some (len / width.toNat)

/-- The bytes of the hashes of the public keys; a slice of more than a hash fails. -/
def pointersOf (gravitonSum : List UInt8 → FixedBytes 32) (width : UInt8) (keys : List G) :
    Option (List UInt8) :=
  if 32 < width.toNat ∧ keys ≠ [] then none
  else some (keys.flatMap fun pk => (gravitonSum (compress pk).1).1.take width.toNat)

/-- What is written before the commitments, and the pointers. -/
def serializePointers (gravitonSum : List UInt8 → FixedBytes 32) (s : Statement G) :
    Option (UInt8 × List UInt8) :=
  if s.publickeylistPointers = [] then do
    let power ← powerOf2 s.publickeylist.length
    let pointers ← pointersOf gravitonSum s.bytesPerPublickey s.publickeylist
    some (power, pointers)
  else do
    let count ← countOf s.publickeylistPointers.length s.bytesPerPublickey
    let power ← powerOf2 count
    some (power, s.publickeylistPointers)

/-- The bytes, and the statement with its pointers filled in; `none` is a panic. -/
def Statement.serialize (gravitonSum : List UInt8 → FixedBytes 32) (s : Statement G) :
    Option (List UInt8 × Statement G) := do
  let (power, pointers) ← serializePointers gravitonSum s
  let count ← countOf pointers.length s.bytesPerPublickey
  let c ← (List.range count).mapM fun i => s.c[i]?
  some ([power] ++ ([s.bytesPerPublickey] ++ (Uvarint.encode s.fees ++ ((compress s.d).1 ++
    (pointers ++ (c.flatMap (fun g => (compress g).1) ++ s.roothash.1))))),
    { s with publickeylistPointers := pointers })

/-- `1u64.checked_shl(power).unwrap_or(0)`. -/
def ringSizeOf (power : UInt8) : Nat := if power.toNat < 64 then 2 ^ power.toNat else 0

/-- The part behind the ring size. -/
def Statement.deserializeRing (ringSize : Nat) : Reader String (Statement G) := do
  let bytesPerPublickey ← takeByte
  if bytesPerPublickey = 0 then fail "statement: bytes_per_publickey == 0"
  else do
    let fees ← readUvarint
    let d ← takeG1 G
    let pointers ← take (ringSize * bytesPerPublickey.toNat)
    withCapacity 128 ringSize
    let c ← collect (takeG1 G) ringSize
    let roothash ← take 32
    pure
      { ringSize, cln := [], crn := [], bytesPerPublickey
        publickeylistPointers := pointers.1
        publickeylist := [], c, d, fees, roothash }

def Statement.deserialize : Reader String (Statement G) := do
  let power ← takeByte
  let ringSize := ringSizeOf power
  if ringSize > 128 then fail "ring size is too large" else Statement.deserializeRing ringSize

end Serialize

section Forms

variable {G : Type} [PointCodec G]

/-- The bytes of a statement. -/
inductive StatementForm (power : UInt8) : List UInt8 → Statement G → Prop
  | mk {width : UInt8} {feesBytes dBytes pointers cBytes : List UInt8} {fees : UInt64} {d : G}
      {c : List G} {roothash : FixedBytes 32} (ring : ringSizeOf power ≤ 128) (wide : width ≠ 0)
      (feesForm : Uvarint.Form feesBytes fees) (dForm : PointForm dBytes d)
      (pointersLength : pointers.length = ringSizeOf power * width.toNat)
      (cForm : Row PointForm cBytes c) (cLength : c.length = ringSizeOf power) :
      StatementForm power
        ([power] ++ ([width] ++ (feesBytes ++ (dBytes ++ (pointers ++ (cBytes ++ roothash.1))))))
        { ringSize := ringSizeOf power, cln := [], crn := [], bytesPerPublickey := width
          publickeylistPointers := pointers, publickeylist := [], c, d, fees, roothash }

theorem deserialize_reads {power : UInt8} {bytes : List UInt8} {s : Statement G}
    (h : StatementForm power bytes s) : Reads Statement.deserialize bytes s := by
  cases h with
  | @mk width _ _ pointers _ _ _ _ roothash ring wide feesForm dForm pointersLength cForm cLength =>
      refine (takeByte_reads power).bind ?_
      simp only [if_neg (not_lt.mpr ring)]
      refine (takeByte_reads width).bind ?_
      rw [if_neg wide]
      refine (readUvarint_reads feesForm).bind ((takeG1_reads dForm).bind ?_)
      refine (reads_takeOr _ ⟨pointers, pointersLength⟩).bind ?_
      refine (reads_withCapacity (by omega)).skip ?_
      refine Reads.bind ?_ ((reads_takeOr _ roothash).last (reads_pure _))
      rw [← cLength]
      exact cForm.reads fun _ _ => takeG1_reads

theorem deserialize_parses :
    Parses Statement.deserialize fun bytes (s : Statement G) =>
      ∃ power, StatementForm power bytes s := by
  refine takeByte_parses.bind fun _ power hpower => ?_
  subst hpower
  dsimp only
  split
  · exact parses_fail _
  rename_i hring
  refine takeByte_parses.bind fun _ width hwidth => ?_
  subst hwidth
  split
  · exact parses_fail _
  rename_i hwide
  refine readUvarint_parses.bind fun _ fees hfees => ?_
  refine takeG1_parses.bind fun _ d hd => ?_
  refine (parses_takeOr _ _).bind fun _ pointers hpointers => ?_
  subst hpointers
  refine (parses_withCapacity (by omega)).bind fun _ _ hnil => ?_
  subst hnil
  refine (parses_collect takeG1_parses _).bind fun _ c hc => ?_
  refine (parses_takeOr _ 32).bind fun _ roothash hroot => parses_pure ?_
  subst hroot
  simp only [List.nil_append, List.append_nil]
  exact ⟨power, .mk (not_lt.mp hring) hwide hfees hd pointers.2 hc.2 hc.1⟩

/-- A statement as the ledger keeps it: the ring is given by the pointers, and its
points are good. -/
structure Statement.WellFormed (good : G → Prop) (m : Nat) (s : Statement G) : Prop where
  power_le : m ≤ 7
  width_ne : s.bytesPerPublickey ≠ 0
  pointers_length : s.publickeylistPointers.length = 2 ^ m * s.bytesPerPublickey.toNat
  ringSize_eq : s.ringSize = 2 ^ m
  c_length : s.c.length = 2 ^ m
  cln_nil : s.cln = []
  crn_nil : s.crn = []
  publickeylist_nil : s.publickeylist = []
  d_good : good s.d
  c_good : ∀ g ∈ s.c, good g

theorem toNat_pos_of_ne_zero {width : UInt8} (h : width ≠ 0) : 0 < width.toNat := by
  apply Nat.pos_of_ne_zero
  intro hzero
  exact h (UInt8.toNat_inj.mp hzero)

theorem ringSizeOf_ofNat {m : Nat} (h : m ≤ 7) : ringSizeOf (UInt8.ofNat m) = 2 ^ m := by
  have hm : (UInt8.ofNat m).toNat = m := by
    rw [UInt8.toNat_ofNat']
    omega
  rw [ringSizeOf, hm, if_pos (by omega)]

/-- A well-formed statement is written in its form. -/
theorem Statement.WellFormed.serialize_form {good : G → Prop} {m : Nat} {s : Statement G}
    (h : s.WellFormed good m) (hgood : ∀ g, good g → PointForm (compress g).1 g)
    (gravitonSum : List UInt8 → FixedBytes 32) :
    ∃ bytes, s.serialize gravitonSum = some (bytes, s) ∧
      StatementForm (UInt8.ofNat m) bytes s := by
  have hwidth := toNat_pos_of_ne_zero h.width_ne
  have hne : s.publickeylistPointers ≠ [] := by
    intro hnil
    have := h.pointers_length
    rw [hnil, List.length_nil] at this
    exact absurd this.symm (Nat.mul_pos (Nat.two_pow_pos m) hwidth).ne'
  have hcount : countOf s.publickeylistPointers.length s.bytesPerPublickey = some (2 ^ m) := by
    rw [countOf, if_neg h.width_ne, h.pointers_length, Nat.mul_div_cancel _ hwidth]
  have hring := ringSizeOf_ofNat h.power_le
  obtain ⟨ringSize, cln, crn, width, pointers, publickeylist, c, d, fees, roothash⟩ := s
  obtain rfl : ringSize = ringSizeOf (UInt8.ofNat m) := by rw [hring]; exact h.ringSize_eq
  obtain rfl : cln = [] := h.cln_nil
  obtain rfl : crn = [] := h.crn_nil
  obtain rfl : publickeylist = [] := h.publickeylist_nil
  have hc := Checked.mapM_range fun i hi => List.getElem?_eq_getElem (l := c) hi
  rw [show c.length = 2 ^ m from h.c_length] at hc
  refine ⟨_, ?_, .mk (show ringSizeOf (UInt8.ofNat m) ≤ 128 from ?_) h.width_ne
    (Uvarint.encode_form fees) (hgood d h.d_good) ?_
    (row_of_good fun g hg => hgood g (h.c_good g hg)) ?_⟩
  · simp only [Statement.serialize, serializePointers, if_neg hne, hcount, powerOf2_two_pow, hc,
      Option.bind_eq_bind, Option.bind_some]
  · rw [hring]
    calc 2 ^ m ≤ 2 ^ 7 := Nat.pow_le_pow_right (by decide) h.power_le
      _ = 128 := rfl
  · rw [hring]
    exact h.pointers_length
  · rw [hring]
    exact h.c_length

/-- Statements with a ring are read as well-formed ones. -/
theorem StatementForm.wellFormed {good : G → Prop} {power : UInt8} {bytes : List UInt8}
    {s : Statement G} (h : StatementForm power bytes s) (hpower : power.toNat < 64)
    (hgood : ∀ bytes g, PointForm bytes g → good g) : s.WellFormed good power.toNat := by
  cases h with
  | mk ring wide feesForm dForm pointersLength cForm cLength =>
      have hring : ringSizeOf power = 2 ^ power.toNat := if_pos hpower
      rw [hring] at ring pointersLength cLength
      refine ⟨?_, wide, pointersLength, hring, cLength, rfl, rfl, rfl, hgood _ _ dForm,
        cForm.forall hgood⟩
      by_contra hgt
      have : 2 ^ 8 ≤ 2 ^ power.toNat := Nat.pow_le_pow_right (by decide) (by omega)
      omega

end Forms

end DirtybirdMiner.Crypto.Statements
