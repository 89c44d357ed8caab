import DirtybirdMiner.Lib.Bytes
import DirtybirdMiner.Lib.Entries
import DirtybirdMiner.Lib.Floats
import DirtybirdMiner.Lib.Utf8
import Mathlib.Data.List.Sort

/-!
The arguments of a smart contract call and their canonical CBOR form, from the
first half of `block/src/arguments.rs`.
-/

namespace DirtybirdMiner.Args.Encoding

open DirtybirdMiner.Lib
open DirtybirdMiner.Lib.Bytes
open DirtybirdMiner.Lib.Floats
open DirtybirdMiner.Lib.Utf8

/-- `GO_ZERO_TIME_UNIX`. -/
def goZeroTimeUnix : Int64 := -62135596800

/-- A float is kept as its bits. -/
inductive ArgValue where
  | uint64 (u : UInt64)
  | int64 (i : Int64)
  | str (s : Text)
  | hash (h : FixedBytes 32)
  | address (a : FixedBytes 33)
  | float64 (bits : UInt64)
  | time (secs : Int64)
deriving DecidableEq

/-- The ASCII code of the type. -/
def ArgValue.typeChar : ArgValue → UInt8
  | uint64 _ => 85
  | int64 _ => 73
  | str _ => 83
  | hash _ => 72
  | address _ => 65
  | float64 _ => 70
  | time _ => 84

theorem ArgValue.typeChar_lt (v : ArgValue) : v.typeChar < 0x80 := by
  cases v <;> simp [typeChar]

structure Argument where
  name : Text
  value : ArgValue
deriving DecidableEq

section Floats

/-- `while m & 0x0080_0000 == 0`, at most `budget` times. -/
def normalize : Nat → Nat → UInt32 → Nat × UInt32
  | 0, e, m => (e, m)
  | budget + 1, e, m =>
      if m &&& 0x00800000 = 0 then normalize budget (e - 1) (m <<< 1) else (e, m)

def f16BitsToF32 (h : UInt16) : UInt32 :=
  let sign := (h &&& 0x8000).toUInt32 <<< 16
  let exp := ((h >>> 10) &&& 0x1f).toUInt32
  let man := (h &&& 0x03ff).toUInt32
  if exp = 0 then
    if man = 0 then sign
    else
      let (e, m) := normalize 24 (127 - 15 + 1) (man <<< 13)
      sign ||| (UInt32.ofNat e <<< 23) ||| (m &&& 0x007fffff)
  else if exp = 0x1f then sign ||| (0x7f800000 : UInt32) ||| (man <<< 13)
  else sign ||| ((exp + 127 - 15) <<< 23) ||| (man <<< 13)

def f32ToF16Bits (x : UInt32) : UInt16 :=
  let sign := ((x >>> 16) &&& 0x8000).toUInt16
  let exp := ((x >>> 23) &&& 0xff).toNat
  let man := x &&& 0x007fffff
  let unbiased : Int := exp - 127
  if exp = 0xff then
    let nanBit : UInt16 := if man ≠ 0 ∧ man >>> 13 = 0 then 0x0200 else 0
    sign ||| (0x7c00 : UInt16) ||| nanBit ||| (man >>> 13).toUInt16
  else if unbiased ≥ 16 then sign ||| 0x7c00
  else if unbiased ≥ -14 then
    let h := sign.toUInt32 ||| ((UInt32.ofNat (unbiased + 15).toNat <<< 10) ||| (man >>> 13))
    let round := man &&& 0x1fff
    if round > 0x1000 ∨ (round = 0x1000 ∧ h &&& 1 = 1) then (h + 1).toUInt16 else h.toUInt16
  else if unbiased ≥ -24 then
    let m := man ||| 0x00800000
    let shift := UInt32.ofNat (-(unbiased + 1)).toNat
    let h := sign.toUInt32 ||| (m >>> shift)
    let rem := m &&& (((1 : UInt32) <<< shift) - 1)
    let half := (1 : UInt32) <<< (shift - 1)
    if rem > half ∨ (rem = half ∧ h &&& 1 = 1) then (h + 1).toUInt16 else h.toUInt16
  else sign

end Floats

/-- The head of an item: its major type and a number. -/
def encHead (major n : Nat) : List UInt8 :=
  if n < 24 then [UInt8.ofNat (32 * major + n)]
  else if n < 0x100 then UInt8.ofNat (32 * major + 24) :: beBytes 1 n
  else if n < 0x10000 then UInt8.ofNat (32 * major + 25) :: beBytes 2 n
  else if n < 0x100000000 then UInt8.ofNat (32 * major + 26) :: beBytes 4 n
  else UInt8.ofNat (32 * major + 27) :: beBytes 8 n

def encText (s : Text) : List UInt8 := encHead 3 s.bytes.length ++ s.bytes

def encBytes (b : List UInt8) : List UInt8 := encHead 2 b.length ++ b

def encInt (i : Int64) : List UInt8 :=
  if 0 ≤ i.toInt then encHead 0 i.toInt.toNat else encHead 1 (-1 - i.toInt).toNat

def encFloat (f : UInt64) : List UInt8 :=
  if binary64.isNan f.toNat then [0xf9, 0x7e, 0x00]
  else if binary64.isInfinite f.toNat then
    [0xf9, if binary64.sign f.toNat = 0 then 0x7c else 0xfc, 0x00]
  else
    let f32v := UInt32.ofNat (narrow f.toNat)
    if binary64.equal (widen f32v.toNat) f.toNat then
      let h := f32ToF16Bits f32v
      if binary32.equal (f16BitsToF32 h).toNat f32v.toNat then 0xf9 :: beBytes 2 h.toNat
      else 0xfa :: beBytes 4 f32v.toNat
    else 0xfb :: beBytes 8 f.toNat

def encTime (secs : Int64) : List UInt8 :=
  if secs = goZeroTimeUnix then [0xf6] else 0xc1 :: encInt secs

def encValue : ArgValue → List UInt8
  | .uint64 u => encHead 0 u.toNat
  | .int64 i => encInt i
  | .str s => encText s
  | .hash h => encBytes h.1
  | .address a => encBytes a.1
  | .float64 f => encFloat f
  | .time secs => encTime secs

/-- The name and the character of the type. -/
def Argument.key (arg : Argument) : Text where
  bytes := arg.name.bytes ++ [arg.value.typeChar]
  isValid := valid_append arg.name.isValid (valid_singleton arg.value.typeChar_lt)

/-- One entry for each key, in the order of the encoded keys. -/
def marshalPairs (args : List Argument) : List (List UInt8 × List UInt8) :=
  (Entries.insertAll [] (args.map fun arg => (encText arg.key, encValue arg.value))).insertionSort
    fun a b => a.1 ≤ b.1

def encPairs (pairs : List (List UInt8 × List UInt8)) : List UInt8 :=
  pairs.flatMap fun p => p.1 ++ p.2

def marshalBinary (args : List Argument) : List UInt8 :=
  encHead 5 (marshalPairs args).length ++ encPairs (marshalPairs args)

end DirtybirdMiner.Args.Encoding
