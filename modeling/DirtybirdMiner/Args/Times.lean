import DirtybirdMiner.Args.Encoding

/-!
Times of arguments, from `block/src/arguments.rs`: the general parser of RFC 3339
texts with its messages, and the seconds of a floating point number.  Texts are
byte strings, and every index of the source is guarded by a length that a pattern
or a condition states here.
-/

namespace DirtybirdMiner.Args.Times

open DirtybirdMiner.Lib.Floats
open DirtybirdMiner.Lib.Utf8
open DirtybirdMiner.Args.Encoding

/-- The text of an error. -/
abbrev Message : Type := List UInt8

def ascii (s : String) : Message := s.toList.map fun c => UInt8.ofNat c.toNat

def decimal (n : Nat) : Message := ascii (toString n)

section Quote

/-- `format!("\\x{b:02x}")`. -/
def hexEscape (b : UInt8) : Message :=
  let digit (n : Nat) : UInt8 := UInt8.ofNat (if n < 10 then 48 + n else 87 + n)
  ascii "\\x" ++ [digit (b.toNat / 16), digit (b.toNat % 16)]

def utf8SequenceLen (s : List UInt8) : Option Nat :=
  match s with
  | [] => none
  | b :: _ =>
      let width :=
        if 0xc2 ≤ b ∧ b ≤ 0xdf then some 2
        else if 0xe0 ≤ b ∧ b ≤ 0xef then some 3
        else if 0xf0 ≤ b ∧ b ≤ 0xf4 then some 4
        else none
      match width with
      | none => none
      | some w => if s.length < w ∨ (fromUtf8 (s.take w)).isNone then none else some w

/-- The bytes that the loop of `go_time_quote` reads in one turn, and what it
writes for them. -/
def quoteTurn (b : UInt8) (s : List UInt8) : Nat × Message :=
  if b < 0x80 then
    (1,
      if b < 0x20 then hexEscape b
      else if b = 34 ∨ b = 92 then [92, b]
      else [b])
  else
    let width :=
      if [0xef, 0xbf, 0xbd].isPrefixOf (b :: s) then 3
      else (utf8SequenceLen (b :: s)).getD 1
    (width, ((b :: s).take width).flatMap hexEscape)

def quoteLoop : Nat → List UInt8 → Message
  | 0, _ => []
  | _, [] => []
  | budget + 1, b :: s =>
      let (width, out) := quoteTurn b s
      out ++ quoteLoop budget ((b :: s).drop width)

def goTimeQuote (s : List UInt8) : Message := [34] ++ quoteLoop s.length s ++ [34]

end Quote

section Civil

def isLeap (y : Int) : Bool := y.tmod 4 = 0 ∧ (y.tmod 100 ≠ 0 ∨ y.tmod 400 = 0)

def daysIn (m y : Int) : Int :=
  if m ∈ [1, 3, 5, 7, 8, 10, 12] then 31
  else if m ∈ [4, 6, 9, 11] then 30
  else if m = 2 then (if isLeap y then 29 else 28)
  else 0

def daysFromCivil (y m d : Int) : Int :=
  let y := if m ≤ 2 then y - 1 else y
  let era := (if y ≥ 0 then y else y - 399).tdiv 400
  let yoe := y - era * 400
  let doy := (153 * (if m > 2 then m - 3 else m + 9) + 2).tdiv 5 + d - 1
  let doe := yoe * 365 + yoe.tdiv 4 - yoe.tdiv 100 + doy
  era * 146097 + doe - 719468

end Civil

section Rfc3339

def rfc3339Layout : Message := ascii "2006-01-02T15:04:05Z07:00"

def isAsciiDigit (b : UInt8) : Bool := 48 ≤ b ∧ b ≤ 57

def digitValue (b : UInt8) : Int := (b.toNat : Int) - 48

def digit (s : List UInt8) (i : Nat) : Bool := (s[i]?).any isAsciiDigit

/-- One digit, or two; `fixed` asks for two. -/
def getnum (s : List UInt8) (fixed : Bool) : Option (Int × List UInt8) :=
  match s with
  | [] => none
  | b :: rest =>
      if !isAsciiDigit b then none
      else
        match rest with
        | c :: rest' =>
            if isAsciiDigit c then some (digitValue b * 10 + digitValue c, rest')
            else if fixed then none
            else some (digitValue b, rest)
        | [] => if fixed then none else some (digitValue b, rest)

variable (avalue : List UInt8)

def cannot (layoutElem : String) (valueElem : List UInt8) : Message :=
  ascii "parsing time " ++ goTimeQuote avalue ++ ascii " as " ++ goTimeQuote rfc3339Layout ++
    ascii ": cannot parse " ++ goTimeQuote valueElem ++ ascii " as " ++
    goTimeQuote (ascii layoutElem)

def rangeErr (unit : String) : Message :=
  ascii "parsing time " ++ goTimeQuote avalue ++ ascii ": " ++ ascii unit ++ ascii " out of range"

/-- A character of the layout. -/
def literal (c : Char) (v : List UInt8) : Except Message (List UInt8) :=
  match v with
  | b :: rest =>
      if b ≠ UInt8.ofNat c.toNat then .error (cannot avalue c.toString v) else .ok rest
  | [] => .error (cannot avalue c.toString v)

/-- A number of the layout. -/
def element (layoutElem : String) (fixed : Bool) (v : List UInt8) :
    Except Message (Int × List UInt8) :=
  match getnum v fixed with
  | some r => .ok r
  | none => .error (cannot avalue layoutElem v)

def longYear (v : List UInt8) : Except Message (Int × List UInt8) :=
  if v.length < 4 ∨ !digit v 0 then .error (cannot avalue "2006" v)
  else if !(v.take 4).all isAsciiDigit then .error (cannot avalue "2006" v)
  else .ok ((v.take 4).foldl (fun acc b => acc * 10 + digitValue b) 0, v.drop 4)

/-- A point or a comma, and digits: dropped. -/
def skipFraction (v : List UInt8) : List UInt8 :=
  match v with
  | c :: d :: rest =>
      if (c = 46 ∨ c = 44) ∧ isAsciiDigit d then rest.dropWhile isAsciiDigit else v
  | _ => v

/-- The offset in seconds. -/
def zone (v : List UInt8) : Except Message (Int × List UInt8) :=
  match v with
  | 90 :: rest => .ok (0, rest)
  | sign :: h1 :: h2 :: 58 :: m1 :: m2 :: rest =>
      match getnum [h1, h2] true with
      | none => .error (cannot avalue "Z07:00" v)
      | some (hr, _) =>
          match getnum [m1, m2] true with
          | none => .error (cannot avalue "Z07:00" v)
          | some (mm, _) =>
              if hr > 24 then .error (rangeErr avalue "time zone offset hour")
              else if mm > 60 then .error (rangeErr avalue "time zone offset minute")
              else if sign = 43 then .ok ((hr * 60 + mm) * 60, rest)
              else if sign = 45 then .ok (-((hr * 60 + mm) * 60), rest)
              else .error (cannot avalue "Z07:00" v)
  | _ => .error (cannot avalue "Z07:00" v)

def goParseRfc3339 : Except Message Int64 := do
  let (year, v) ← longYear avalue avalue
  let v ← literal avalue '-' v
  let (month, v) ← element avalue "01" true v
  if ¬(1 ≤ month ∧ month ≤ 12) then .error (rangeErr avalue "month")
  let v ← literal avalue '-' v
  let (day, v) ← element avalue "02" true v
  let v ← literal avalue 'T' v
  let (hour, v) ← element avalue "15" false v
  if hour ≥ 24 then .error (rangeErr avalue "hour")
  let v ← literal avalue ':' v
  let (min, v) ← element avalue "04" true v
  if min ≥ 60 then .error (rangeErr avalue "minute")
  let v ← literal avalue ':' v
  let (sec, v) ← element avalue "05" true v
  if sec ≥ 60 then .error (rangeErr avalue "second")
  let (offsetSecs, v) ← zone avalue (skipFraction v)
  if v ≠ [] then
    .error (ascii "parsing time " ++ goTimeQuote avalue ++ ascii ": extra text: " ++ goTimeQuote v)
  if day < 1 ∨ day > daysIn month year then .error (rangeErr avalue "day")
  return Int64.ofInt
    (daysFromCivil year month day * 86400 + hour * 3600 + min * 60 + sec - offsetSecs)

end Rfc3339

/-- The arm of `parse_to_time` for a float: the integer part, one less when the
fraction has a nanosecond below it. -/
def floatSeconds (f : UInt64) : Int64 :=
  let n := f.toNat
  if binary64.isNan n ∨ binary64.isInfinite n then goZeroTimeUnix
  else
    let one := 2 ^ binary64.unit
    let whole := binary64.magnitude n / one
    let fraction := binary64.magnitude n % one
    let negative : Bool := binary64.sign n = 1
    let sec : Int64 :=
      if negative then (if whole ≤ 2 ^ 63 then Int64.ofInt (-whole) else Int64.minValue)
      else (if whole < 2 ^ 63 then Int64.ofInt whole else Int64.minValue)
    if negative ∧ binary64.round (fraction * 10 ^ 9) ≥ one then sec - 1 else sec

end DirtybirdMiner.Args.Times
