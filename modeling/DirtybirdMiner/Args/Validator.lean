import DirtybirdMiner.Args.Times
import DirtybirdMiner.Lib.Buffers
import DirtybirdMiner.Lib.Programs

/-!
The first phase of the decoder of `block/src/arguments.rs`: whether a byte string
starts with a well-formed CBOR item.  The state is the offset; loops and
recursions have a budget, and every turn of one reads a byte.
-/

namespace DirtybirdMiner.Args.Validator

open DirtybirdMiner.Lib.Bytes
open DirtybirdMiner.Lib.Buffers
open DirtybirdMiner.Lib.Programs
open DirtybirdMiner.Lib.Programs.Prog
open DirtybirdMiner.Args.Times

/-- A program that moves an offset through a byte string. -/
abbrev Reader (α : Type) : Type := Prog Nat Message α

/-- `MAX_NESTED_LEVELS`. -/
def maxNestedLevels : Nat := 32

/-- `MAX_ARRAY_ELEMENTS`. -/
def maxArrayElements : Nat := 131072

/-- `MAX_MAP_PAIRS`. -/
def maxMapPairs : Nat := 131072

def majorName (major : Nat) : Message :=
  if major = 0 then ascii "positive integer"
  else if major = 1 then ascii "negative integer"
  else if major = 2 then ascii "byte string"
  else if major = 3 then ascii "UTF-8 text string"
  else if major = 4 then ascii "array"
  else if major = 5 then ascii "map"
  else if major = 6 then ascii "tag"
  else ascii "primitives"

def unexpectedEof : Message := ascii "unexpected EOF"

def unexpectedBreak : Message := ascii "cbor: unexpected \"break\" code"

def invalidAdditional (ai t : Nat) : Message :=
  ascii "cbor: invalid additional information " ++ decimal ai ++ ascii " for type " ++ majorName t

def exceededNesting : Message :=
  ascii "cbor: exceeded max nested level " ++ decimal maxNestedLevels

def exceededElements : Message :=
  ascii "cbor: exceeded max number of elements " ++ decimal maxArrayElements ++
    ascii " for CBOR array"

def exceededPairs : Message :=
  ascii "cbor: exceeded max number of key-value pairs " ++ decimal maxMapPairs ++
    ascii " for CBOR map"

variable (data : List UInt8)

/-- `self.d[self.off]`. -/
def peek : Reader UInt8 := do
  let off ← get
  demand data[off]?

/-- `self.d[self.off..self.off + len]`, and `self.off += len`. -/
def take (len : Nat) : Reader (List UInt8) := do
  let off ← get
  let bytes ← demand (readAt data off len)
  set (off + len)
  pure bytes

/-- The big-endian number at the offset. -/
def number (width : Nat) : Reader Nat := do
  let bytes ← take data width
  pure (beValue bytes)

/-- The number behind the first byte of a head, given how many bytes are left. -/
def validNumber (dataLen t ai : Nat) : Reader Nat :=
  if ai ≤ 23 then pure ai
  else if ai = 24 then
    if dataLen < 2 then fail unexpectedEof
    else do
      let val ← number data 1
      if t = 7 ∧ val < 32 then
        fail (ascii "cbor: invalid simple value " ++ decimal val ++ ascii " for type primitives")
      else pure val
  else if ai = 25 then
    if dataLen < 3 then fail unexpectedEof else number data 2
  else if ai = 26 then
    if dataLen < 5 then fail unexpectedEof else number data 4
  else if ai = 27 then
    if dataLen < 9 then fail unexpectedEof else number data 8
  else if ai = 31 then
    if t = 0 ∨ t = 1 ∨ t = 6 then fail (invalidAdditional ai t)
    else if t = 7 then fail unexpectedBreak
    else pure ai
  else fail (invalidAdditional ai t)

/-- The major type, the additional information and the number. -/
def validHead : Reader (Nat × Nat × Nat) := do
  let off ← get
  let dataLen ← demand (if off ≤ data.length then some (data.length - off) else none)
  if dataLen = 0 then fail unexpectedEof
  else do
    let b ← peek data
    let t := b.toNat / 32
    let ai := b.toNat % 32
    set (off + 1)
    let val ← validNumber data dataLen t ai
    pure (t, ai, val)

section Recursion

-- the recursive call
variable (validInternal : Nat → Reader Nat)

/-- Whether a break code is next, which is then read. -/
def validBreak : Reader Bool := do
  let off ← get
  if data.length = off then fail unexpectedEof
  else do
    let b ← peek data
    if b = 0xff then do
      set (off + 1)
      pure true
    else pure false

/-- One chunk of a string without a length. -/
def stringTurn (t depth : Nat) : Reader (Nat ⊕ Nat) := do
  if ← validBreak data then pure (.inr depth)
  else do
    let b ← peek data
    if b.toNat / 32 ≠ t then
      fail (ascii "cbor: wrong element type " ++ majorName (b.toNat / 32) ++
        ascii " for indefinite-length " ++ majorName t)
    else if b.toNat % 32 = 31 then
      fail (ascii "cbor: indefinite-length " ++ majorName t ++
        ascii " chunk is not definite-length")
    else do
      let depth ← validInternal depth
      pure (.inl depth)

def validIndefiniteString (t depth : Nat) : Reader Nat :=
  loop (stringTurn data validInternal t) (data.length + 1) depth

/-- One item of an array or a map without a length.  The local variables are the
greatest depth and the number of items. -/
def itemTurn (t depth : Nat) (s : Nat × Nat) : Reader (Nat × Nat ⊕ Nat × Nat) := do
  if ← validBreak data then pure (.inr s)
  else do
    let dpt ← validInternal depth
    let maxDepth := if dpt > s.1 then dpt else s.1
    let i := s.2 + 1
    if t = 4 ∧ i > maxArrayElements then fail exceededElements
    else if t ≠ 4 ∧ i % 2 = 0 ∧ i / 2 > maxMapPairs then fail exceededPairs
    else pure (.inl (maxDepth, i))

def validIndefiniteArrayOrMap (t depth : Nat) : Reader Nat := do
  let (maxDepth, i) ← loop (itemTurn data validInternal t depth) (data.length + 1) (depth, 0)
  if t = 5 ∧ i % 2 = 1 then fail unexpectedBreak else pure maxDepth

/-- One tag behind a tag. -/
def tagTurn (depth : Nat) : Reader (Nat ⊕ Nat) := do
  let off ← get
  if data.length = off then fail unexpectedEof
  else do
    let b ← peek data
    if b.toNat / 32 ≠ 6 then pure (.inr depth)
    else do
      let _ ← validHead data
      if depth + 1 > maxNestedLevels then fail exceededNesting else pure (.inl (depth + 1))

/-- The tags behind a tag; the depth of the first item that is none. -/
def validTags (depth : Nat) : Reader Nat := loop (tagTurn data) (data.length + 1) depth

/-- The items of an array, or twice as many for a map. -/
def validItems (t val depth : Nat) : Reader Nat :=
  times (times (fun maxDepth => do
    let dpt ← validInternal depth
    pure (if dpt > maxDepth then dpt else maxDepth)) val) (if t = 5 then 2 else 1) depth

def validString (t ai val depth : Nat) : Reader Nat :=
  if ai = 31 then validIndefiniteString data validInternal t depth
  else if val > 2 ^ 63 - 1 then
    fail (ascii "cbor: " ++ majorName t ++ ascii " length " ++ decimal val ++
      ascii " is too large, causing integer overflow")
  else do
    let off ← get
    if data.length - off < val then fail unexpectedEof
    else do
      set (off + val)
      pure depth

def validArrayOrMap (t ai val depth : Nat) : Reader Nat :=
  let depth := depth + 1
  if depth > maxNestedLevels then fail exceededNesting
  else if ai = 31 then validIndefiniteArrayOrMap data validInternal t depth
  else if val > 2 ^ 63 - 1 then
    fail (ascii "cbor: " ++ majorName t ++ ascii " length " ++ decimal val ++
      ascii " is too large, it would cause integer overflow")
  else if t = 4 ∧ val > maxArrayElements then fail exceededElements
  else if t ≠ 4 ∧ val > maxMapPairs then fail exceededPairs
  else validItems validInternal t val depth

end Recursion

/-- Returns the greatest depth. -/
def validInternal : Nat → Nat → Reader Nat
  | 0, _ => crash
  | fuel + 1, depth => do
      let (t, ai, val) ← validHead data
      if t = 2 ∨ t = 3 then validString data (validInternal fuel) t ai val depth
      else if t = 4 ∨ t = 5 then validArrayOrMap data (validInternal fuel) t ai val depth
      else if t = 6 then do
        let depth ← validTags data depth
        validInternal fuel depth
      else pure depth

end DirtybirdMiner.Args.Validator
