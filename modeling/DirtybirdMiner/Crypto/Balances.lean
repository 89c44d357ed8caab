import DirtybirdMiner.Crypto.Statements
import DirtybirdMiner.Lib.Checked

/-!
Encrypted balances and their byte form, from `crypto/src/elgamal.rs`.  `none` is a
panic: a shift by the width of the number or more.
-/

namespace DirtybirdMiner.Crypto.Balances

open DirtybirdMiner.Lib
open DirtybirdMiner.Lib.Checked
open DirtybirdMiner.Crypto.Statements

structure ElGamal (G : Type) where
  left : G
  right : G
deriving DecidableEq

inductive ElGamalError where
  | badLength (len : Nat)
  | point (message : String)
deriving DecidableEq

def ElGamalError.message : ElGamalError → String
  | badLength len => "bad elgamal length: expected 66, got " ++ toString len
  | point message => "point decode: " ++ message

structure NonceBalance (G : Type) where
  nonceHeight : UInt64
  balance : ElGamal G
deriving DecidableEq

/-- `x << s`, with the overflow check. -/
def shiftLeft (x : UInt64) (s : Nat) : Option UInt64 := do
  require (s < 64)
  some (x <<< UInt64.ofNat s)

section Codec

variable {G : Type} [PointCodec G]

/-- `map_err(ElGamalError::Point)`. -/
def decodePoint (data : List UInt8) : Except ElGamalError G :=
  (decompress data).mapError ElGamalError.point

def ElGamal.deserialize (data : List UInt8) : Except ElGamalError (ElGamal G) :=
  if data.length ≠ 66 then .error (.badLength data.length)
  else do
    let left ← decodePoint (data.take 33)
    let right ← decodePoint ((data.drop 33).take 33)
    .ok { left, right }

def ElGamal.serialize (e : ElGamal G) : List UInt8 := (compress e.left).1 ++ (compress e.right).1

def NonceBalance.serialize (n : NonceBalance G) : List UInt8 :=
  Uvarint.push [] n.nonceHeight ++ n.balance.serialize

/-- The loop of `NonceBalance::deserialize`, on the bytes from the `i`-th on: the height and
the number of bytes.  It has no limit. -/
def nonceHeightFrom (len : Nat) :
    Nat → UInt64 → Nat → List UInt8 → Option (Except ElGamalError (UInt64 × Nat))
  | _, _, _, [] => some (.error (.badLength len))
  | shift, nonceHeight, i, b :: bytes =>
      if b < 0x80 then do
        let part ← shiftLeft b.toUInt64 shift
        some (.ok (nonceHeight ||| part, i + 1))
      else do
        let part ← shiftLeft (b &&& 0x7f).toUInt64 shift
        nonceHeightFrom len (shift + 7) (nonceHeight ||| part) (i + 1) bytes

def readNonceHeight (buf : List UInt8) : Option (Except ElGamalError (UInt64 × Nat)) :=
  nonceHeightFrom buf.length 0 0 0 buf

def NonceBalance.deserialize (buf : List UInt8) :
    Option (Except ElGamalError (NonceBalance G)) := do
  match ← readNonceHeight buf with
  | .error e => some (.error e)
  | .ok (nonceHeight, i) =>
      some ((ElGamal.deserialize (buf.drop i)).map fun balance => { nonceHeight, balance })

end Codec

section NonceHeight

variable {len : Nat}

theorem shiftLeft_eq_some {x : UInt64} {s : Nat} (h : s < 64) :
    shiftLeft x s = some (x <<< UInt64.ofNat s) := by
  rw [shiftLeft, require_eq_some h]
  rfl

theorem shiftLeft_eq_none {x : UInt64} {s : Nat} (h : 64 ≤ s) : shiftLeft x s = none := by
  rw [shiftLeft, require, if_neg (Nat.not_lt.mpr h)]
  rfl

/-- What the decoder with the limit takes, the one without it takes in the same way. -/
theorem nonceHeightFrom_of_decodeFrom {bytes : List UInt8} {i n : Nat} {x v : UInt64}
    (h : Uvarint.decodeFrom i x bytes = .ok (v, n)) (hi : i ≤ 10) :
    nonceHeightFrom len (7 * i) x i bytes = some (.ok (v, n)) := by
  induction bytes generalizing i x with
  | nil => cases h
  | cons b bytes ih =>
      rw [Uvarint.decodeFrom] at h
      split at h
      · cases h
      rename_i hten
      have hshift : 7 * i < 64 := by omega
      rw [nonceHeightFrom]
      split at h
      · rename_i hsmall
        split at h
        · cases h
        cases h
        rw [if_pos hsmall, shiftLeft_eq_some hshift]
        rfl
      · rename_i hlarge
        rw [if_neg hlarge, shiftLeft_eq_some hshift]
        exact ih h (by omega)

/-- Bytes that all go on are read to the end. -/
theorem nonceHeightFrom_of_high {bytes : List UInt8} (h : ∀ b ∈ bytes, ¬b < 0x80) {i : Nat}
    {x : UInt64} (hi : i + bytes.length ≤ 10) :
    nonceHeightFrom len (7 * i) x i bytes = some (.error (.badLength len)) := by
  induction bytes generalizing i x with
  | nil => rfl
  | cons b bytes ih =>
      rw [List.forall_mem_cons] at h
      rw [List.length_cons] at hi
      rw [nonceHeightFrom, if_neg h.1, shiftLeft_eq_some (by omega)]
      exact ih h.2 (i := i + 1) (by omega)

/-- Only the end of the bytes is an error, and it is reached without a shift too far. -/
theorem high_of_nonceHeightFrom {bytes : List UInt8} {i : Nat} {x : UInt64} {e : ElGamalError}
    (h : nonceHeightFrom len (7 * i) x i bytes = some (.error e)) (hi : i ≤ 10) :
    i + bytes.length ≤ 10 ∧ ∀ b ∈ bytes, ¬b < 0x80 := by
  induction bytes generalizing i x with
  | nil => exact ⟨hi, by simp⟩
  | cons b bytes ih =>
      rcases Nat.lt_or_ge i 10 with hlt | hge
      · rw [nonceHeightFrom] at h
        split at h
        · rw [shiftLeft_eq_some (by omega)] at h
          cases h
        · rename_i hlarge
          rw [shiftLeft_eq_some (by omega)] at h
          obtain ⟨hlen, hhigh⟩ := ih (i := i + 1) h (by omega)
          rw [List.length_cons, List.forall_mem_cons]
          exact ⟨by omega, hlarge, hhigh⟩
      · rw [nonceHeightFrom, shiftLeft_eq_none (by omega), shiftLeft_eq_none (by omega)] at h
        simp at h

end NonceHeight

section RoundTrip

variable {G : Type} [PointCodec G]

theorem serialize_eq (n : NonceBalance G) :
    n.serialize = Uvarint.encode n.nonceHeight ++ n.balance.serialize := by
  rw [NonceBalance.serialize, Uvarint.push_eq, List.nil_append]

theorem readNonceHeight_encode (x : UInt64) (rest : List UInt8) :
    readNonceHeight (Uvarint.encode x ++ rest) = some (.ok (x, (Uvarint.encode x).length)) :=
  nonceHeightFrom_of_decodeFrom (i := 0) (Uvarint.decode_encode x rest) (Nat.zero_le 10)

end RoundTrip

end DirtybirdMiner.Crypto.Balances
