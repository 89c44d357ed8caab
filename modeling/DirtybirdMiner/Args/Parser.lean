import DirtybirdMiner.Args.Validator

/-!
The second phase of the decoder of `block/src/arguments.rs`: the parser, which
trusts the first phase and indexes without checks.  An index out of range is a
panic, and so is a budget that runs out: every turn of a loop and every recursion
reads a byte, so that more of them than the data has bytes end out of range.
-/

namespace DirtybirdMiner.Args.Parser

open DirtybirdMiner.Lib
open DirtybirdMiner.Lib.Bytes
open DirtybirdMiner.Lib.Buffers
open DirtybirdMiner.Lib.Programs
open DirtybirdMiner.Lib.Programs.Prog
open DirtybirdMiner.Lib.Utf8
open DirtybirdMiner.Lib.Floats
open DirtybirdMiner.Args.Encoding
open DirtybirdMiner.Args.Times
open DirtybirdMiner.Args.Validator

inductive Cval where
  | u64 (u : UInt64)
  | i64 (i : Int64)
  | big
  | f64 (bits : UInt64)
  | bytes (b : List UInt8)
  | text (s : Text)
  | bool
  | nil
  | arr
  | map
  | tag (content : Cval)
  | time (unix : Int64)
deriving DecidableEq

def goTypeName : Cval → Message
  | .u64 _ => ascii "uint64"
  | .i64 _ => ascii "int64"
  | .big => ascii "big.Int"
  | .f64 _ => ascii "float64"
  | .bytes _ => ascii "[]uint8"
  | .text _ => ascii "string"
  | .bool => ascii "bool"
  | .nil => ascii "<nil>"
  | .arr => ascii "[]interface \x7b\x7d"
  | .map => ascii "map[interface \x7b\x7d]interface \x7b\x7d"
  | .tag _ => ascii "cbor.Tag"
  | .time _ => ascii "time.Time"

def goHashable : Cval → Bool
  | .bytes _ | .arr | .map | .big => false
  | .tag content => goHashable content
  | _ => true

/-- `GO_MAP_TYPE`. -/
def goMapType : String := "map[string]interface \x7b\x7d"

def fillErr (cborType goType : String) : Message :=
  ascii "cbor: cannot unmarshal " ++ ascii cborType ++ ascii " into Go value of type " ++
    ascii goType

def fillErrMsg (cborType goType : String) (msg : Message) : Message :=
  fillErr cborType goType ++ ascii " (" ++ msg ++ ascii ")"

/-- `neg_big_str`, the decimal text of `-1 - val`. -/
def negBigStr (val : Nat) : Message := ascii "-" ++ decimal (val + 1)

def validBuiltinTag (tagNum : Nat) (contentHead : UInt8) : Except Message Unit :=
  let t := contentHead.toNat / 32
  if tagNum = 0 then
    if t ≠ 3 then
      .error (ascii "cbor: tag number 0 must be followed by text string, got " ++ majorName t)
    else .ok ()
  else if tagNum = 1 then
    if t ≠ 0 ∧ t ≠ 1 ∧ ¬(0xf9 ≤ contentHead ∧ contentHead ≤ 0xfb) then
      .error
        (ascii "cbor: tag number 1 must be followed by integer or floating-point number, got " ++
          majorName t)
    else .ok ()
  else if tagNum = 2 ∨ tagNum = 3 then
    if t ≠ 2 then
      .error (ascii "cbor: tag number 2 or 3 must be followed by byte string, got " ++ majorName t)
    else .ok ()
  else .ok ()

variable (data : List UInt8)

def nextMajor : Reader Nat := do
  let b ← peek data
  pure (b.toNat / 32)

def getHead : Reader (Nat × Nat × Nat) := do
  let off ← get
  let b ← peek data
  let t := b.toNat / 32
  let ai := b.toNat % 32
  set (off + 1)
  let val ←
    if ai = 24 then number data 1
    else if ai = 25 then number data 2
    else if ai = 26 then number data 4
    else if ai = 27 then number data 8
    else pure ai
  pure (t, ai, val)

def foundBreak : Reader Bool := do
  let off ← get
  let b ← peek data
  if b = 0xff then do
    set (off + 1)
    pure true
  else pure false

/-- `while !self.found_break()`. -/
def untilBreak {β : Type} (body : β → Reader β) : β → Reader β :=
  loop (fun b => do
    if ← foundBreak data then pure (.inr b)
    else do
      let b ← body b
      pure (.inl b)) (data.length + 1)

/-- Whether `i` items are all: as many as the head says, or up to a break. -/
def noMore (ai val i : Nat) : Reader Bool :=
  if ai ≠ 31 then pure (decide (i ≥ val)) else foundBreak data

/-- The loop over the items of an array or a map. -/
def items {β : Type} (ai val : Nat) (body : β → Reader β) (b : β) : Reader β :=
  loop (fun (s : Nat × β) => do
    if ← noMore data ai val s.1 then pure (.inr s.2)
    else do
      let b ← body s.2
      pure (.inl (s.1 + 1, b))) (data.length + 1) (0, b)

def skip : Nat → Reader Unit
  | 0 => crash
  | fuel + 1 => do
      let (t, ai, val) ← getHead data
      if ai = 31 ∧ (t = 2 ∨ t = 3 ∨ t = 4 ∨ t = 5) then
        untilBreak data (fun _ => skip fuel) ()
      else if t = 2 ∨ t = 3 then do
        let off ← get
        set (off + val)
      else if t = 4 then times (fun _ => skip fuel) val ()
      else if t = 5 then times (fun _ => skip fuel) (min (val * 2) (2 ^ 64 - 1)) ()
      else if t = 6 then skip fuel
      else pure ()

def skipItem : Reader Unit := skip data (data.length + 1)

def parseByteString : Reader (List UInt8) := do
  let (_, ai, val) ← getHead data
  if ai ≠ 31 then take data val
  else
    untilBreak data (fun b => do
      let (_, _, n) ← getHead data
      let x ← take data n
      pure (b ++ x)) []

def invalidUtf8 : Message := ascii "cbor: invalid UTF-8 string"

/-- Every chunk is a string of its own. -/
def parseTextString : Reader Text := do
  let (_, ai, val) ← getHead data
  if ai ≠ 31 then do
    let b ← take data val
    match fromUtf8 b with
    | some s => pure s
    | none => fail invalidUtf8
  else do
    let b ← untilBreak data (fun b => do
      let (_, _, n) ← getHead data
      let x ← take data n
      if (fromUtf8 x).isNone then do
        untilBreak data (fun _ => skipItem data) ()
        fail invalidUtf8
      else pure (b ++ x)) []
    demand (fromUtf8 b)

def stripSelfDescribed : Reader Unit :=
  loop (fun _ => do
    let t ← nextMajor data
    if t ≠ 6 then pure (.inr ())
    else do
      let save ← get
      let (_, _, num) ← getHead data
      if num ≠ 55799 then do
        set save
        pure (.inr ())
      else pure (.inl ())) (data.length + 1) ()

/-- The content of a tag that it must not have is skipped. -/
def checkBuiltinTag : Reader Unit := do
  let t ← nextMajor data
  if t = 6 then do
    let save ← get
    let (_, _, num) ← getHead data
    let contentHead ← peek data
    match validBuiltinTag num contentHead with
    | .error e => do
        skipItem data
        fail e
    | .ok () => set save
  else pure ()

section Values

-- the recursive call
variable (parse : Bool → Reader Cval)

def parseToTime : Reader Int64 := do
  let _ ← getHead data
  let v ← parse false
  match v with
  | .u64 c => pure c.toInt64
  | .i64 c => pure c
  | .f64 f => pure (floatSeconds f)
  | .text s =>
      match goParseRfc3339 s.bytes with
      | .ok unix => pure unix
      | .error e =>
          fail (ascii "cbor: cannot set " ++ s.bytes ++ ascii " for time.Time: " ++ e)
  | _ => fail (fillErr "tag" "time.Time")

/-- `if let Err(e) = .. { first_err.get_or_insert(e); }`. -/
def parseNoting (firstErr : Option Message) : Reader (Option Message) := do
  match ← (parse true).attempt with
  | .error e => pure (firstErr.or (some e))
  | .ok _ => pure firstErr

def closeWith (v : Cval) : Option Message → Reader Cval
  | some e => fail e
  | none => pure v

def parseArray : Reader Cval := do
  let (_, ai, val) ← getHead data
  let firstErr ← items data ai val (parseNoting parse) none
  closeWith .arr firstErr

def parsePair (firstErr : Option Message) : Reader (Option Message) := do
  match ← (parse true).attempt with
  | .error e => do
      skipItem data
      pure (firstErr.or (some e))
  | .ok k =>
      if !goHashable k then do
        skipItem data
        pure (firstErr.or (some (ascii "cbor: invalid map key type: " ++ goTypeName k)))
      else parseNoting parse firstErr

def parseMap : Reader Cval := do
  let (_, ai, val) ← getHead data
  let firstErr ← items data ai val (parsePair data parse) none
  closeWith .map firstErr

def parseTag : Reader Cval := do
  let tagOff ← get
  let (_, _, num) ← getHead data
  if num = 0 ∨ num = 1 then do
    set tagOff
    let unix ← parseToTime data parse
    pure (.time unix)
  else if num = 2 ∨ num = 3 then do
    let _ ← parseByteString data
    pure .big
  else do
    let content ← parse false
    pure (.tag content)

def parsePrimitive : Reader Cval := do
  let (_, ai, val) ← getHead data
  if ai < 20 ∨ ai = 24 then pure (.u64 (UInt64.ofNat val))
  else if ai = 20 ∨ ai = 21 then pure .bool
  else if ai = 22 ∨ ai = 23 then pure .nil
  else if ai = 25 then
    pure (.f64 (UInt64.ofNat (widen (f16BitsToF32 (UInt16.ofNat val)).toNat)))
  else if ai = 26 then pure (.f64 (UInt64.ofNat (widen val)))
  else pure (.f64 (UInt64.ofNat val))

/-- The value behind the self-described tags and the check of built-in tags. -/
def parseItem : Reader Cval := do
  let t ← nextMajor data
  if t = 0 then do
    let (_, _, val) ← getHead data
    pure (.u64 (UInt64.ofNat val))
  else if t = 1 then do
    let (_, _, val) ← getHead data
    if val > 2 ^ 63 - 1 then pure .big else pure (.i64 (Int64.ofInt (-1 - val)))
  else if t = 2 then do
    let b ← parseByteString data
    pure (.bytes b)
  else if t = 3 then do
    let s ← parseTextString data
    pure (.text s)
  else if t = 4 then parseArray data parse
  else if t = 5 then parseMap data parse
  else if t = 6 then parseTag data parse
  else parsePrimitive data

end Values

def parse : Nat → Bool → Reader Cval
  | 0, _ => crash
  | fuel + 1, skipSelfDescribedTag => do
      if skipSelfDescribedTag then stripSelfDescribed data else pure ()
      checkBuiltinTag data
      parseItem data (parse fuel)

def parseValue (fuel : Nat) : Reader Cval := do
  stripSelfDescribed data
  parse data fuel false

section Destinations

/-- The error of a bignum for a destination that cannot hold it, with the value
in the message when it overflows. -/
def bignumErr (goType : String) (fits : Bool) (text : Message) : Message :=
  if fits then fillErr "tag" goType
  else fillErrMsg "tag" goType (text ++ ascii " overflows " ++ ascii goType)

/-- What the string and the map destination have in common: the errors of
positive and negative integers, byte strings and bignums. -/
def rejectPositive {α : Type} (goType : String) : Reader α := do
  let _ ← getHead data
  fail (fillErr "positive integer" goType)

def rejectNegative {α : Type} (goType : String) : Reader α := do
  let (_, _, val) ← getHead data
  if val > 2 ^ 63 - 1 then
    fail (fillErrMsg "negative integer" goType (negBigStr val ++ ascii " overflows Go's int64"))
  else fail (fillErr "negative integer" goType)

def rejectBytes {α : Type} (goType : String) : Reader α := do
  let _ ← parseByteString data
  fail (fillErr "byte string" goType)

def rejectSkipped {α : Type} (cborType goType : String) : Reader α := do
  skipItem data
  fail (fillErr cborType goType)

def rejectPositiveBignum {α : Type} (goType : String) : Reader α := do
  let b ← parseByteString data
  let bi := beValue b
  fail (bignumErr goType (bi < 2 ^ 64) (decimal bi))

def rejectNegativeBignum {α : Type} (goType : String) : Reader α := do
  let b ← parseByteString data
  let bi := beValue b + 1
  fail (bignumErr goType (bi < 2 ^ 63 ∨ bi = 2 ^ 63) (ascii "-" ++ decimal bi))

end Destinations

/-- The key, which a null or undefined item leaves as it was. -/
def parseKey : Nat → Text → Reader Text
  | 0, _ => crash
  | fuel + 1, slot => do
      stripSelfDescribed data
      checkBuiltinTag data
      let t ← nextMajor data
      if t = 0 then rejectPositive data "string"
      else if t = 1 then rejectNegative data "string"
      else if t = 2 then rejectBytes data "string"
      else if t = 3 then parseTextString data
      else if t = 4 then rejectSkipped data "array" "string"
      else if t = 5 then rejectSkipped data "map" "string"
      else if t = 6 then do
        let (_, _, num) ← getHead data
        if num = 2 then rejectPositiveBignum data "string"
        else if num = 3 then rejectNegativeBignum data "string"
        else parseKey fuel slot
      else do
        let (_, ai, _) ← getHead data
        if ai = 22 ∨ ai = 23 then pure slot else fail (fillErr "primitives" "string")

/-- The local variables of the loop over the pairs. -/
structure Pairs where
  firstErr : Option Message := none
  keySlot : Text := ⟨[], rfl⟩
  entries : List (Text × Cval) := []

def parseEntry (fuel : Nat) (s : Pairs) : Reader Pairs := do
  match ← (parseKey data fuel s.keySlot).attempt with
  | .error e => do
      skipItem data
      pure { s with firstErr := s.firstErr.or (some e) }
  | .ok keySlot => do
      match ← (parseValue data fuel).attempt with
      | .error e => pure { s with firstErr := s.firstErr.or (some e), keySlot }
      | .ok v => pure { s with keySlot, entries := Entries.insert s.entries keySlot v }

def parseMapToLocalmap (fuel : Nat) : Reader (List (Text × Cval)) := do
  let (_, ai, val) ← getHead data
  let s ← items data ai val (parseEntry data fuel) {}
  match s.firstErr with
  | some e => fail e
  | none => pure s.entries

def parseTopToMap : Nat → Reader (List (Text × Cval))
  | 0 => crash
  | fuel + 1 => do
      stripSelfDescribed data
      checkBuiltinTag data
      let t ← nextMajor data
      if t = 0 then rejectPositive data goMapType
      else if t = 1 then rejectNegative data goMapType
      else if t = 2 then rejectBytes data goMapType
      else if t = 3 then do
        let _ ← parseTextString data
        fail (fillErr "UTF-8 text string" goMapType)
      else if t = 4 then rejectSkipped data "array" goMapType
      else if t = 5 then parseMapToLocalmap data fuel
      else if t = 6 then do
        let (_, _, num) ← getHead data
        if num = 2 then rejectPositiveBignum data goMapType
        else if num = 3 then rejectNegativeBignum data goMapType
        else parseTopToMap fuel
      else do
        let (_, ai, _) ← getHead data
        if ai = 22 ∨ ai = 23 then pure [] else fail (fillErr "primitives" goMapType)

/-- `cbor_unmarshal_localmap`: both phases start at the first byte. -/
def cborUnmarshalLocalmap : Option (Except Message (List (Text × Cval))) :=
  if data = [] then some (.error (ascii "EOF"))
  else
    match validInternal data (data.length + 1) 0 0 with
    | none => none
    | some (.error e, _) => some (.error e)
    | some (.ok _, _) => (parseTopToMap data (data.length + 1) 0).map Prod.fst

end DirtybirdMiner.Args.Parser
