import DirtybirdMiner.Args.Parser
import DirtybirdMiner.Bn256.Affine

/-!
`unmarshal_binary_exact` of `block/src/arguments.rs`: the map of the decoder, read
entry by entry by the last character of its key.
-/

namespace DirtybirdMiner.Args.Arguments

open DirtybirdMiner.Lib.Bytes
open DirtybirdMiner.Lib.Utf8
open DirtybirdMiner.Bn256.Prime
open DirtybirdMiner.Bn256.Affine
open DirtybirdMiner.Args.Encoding
open DirtybirdMiner.Args.Times
open DirtybirdMiner.Args.Parser

/-- A buffer of zeros with the bytes copied into it, as many as fit. -/
def copyInto (n : Nat) (b : List UInt8) : FixedBytes n :=
  ⟨b.take n ++ List.replicate (n - b.length) 0, by simp; omega⟩

section Address

def decodeAddressGo (b : List UInt8) : Except Message (FixedBytes 33) :=
  let a := copyInto 33 b
  let x := beValue (a.1.take 32)
  let beta := (x * x * x + 3) % fieldPrime
  let y1 := modSqrt beta
  if y1 * y1 % fieldPrime ≠ beta then .error (ascii "bn256: Cannot decompress")
  else
    let y2 := fieldPrime - y1
    let chosen := chooseRoot y1 y2 (a.1.getD 32 0)
    if x ≥ fieldPrime ∨ chosen ≥ fieldPrime then .ok ⟨List.replicate 33 0, rfl⟩
    else
      let yNeg := fieldPrime - chosen
      .ok ⟨a.1.take 32 ++ [if chosen < yNeg then 0x00 else 0x01], by simp [a.2]⟩

end Address

section TypeError

/-- The characters of the types. -/
def typeChars : List UInt8 := [73, 85, 70, 72, 65, 83, 84]

/-- The name of a type and the verb of its values. -/
def typeTexts (tchar : UInt8) : Option (String × String) :=
  if tchar = 83 then some ("string", "s")
  else if tchar = 73 then some ("int64", "d")
  else if tchar = 85 then some ("uint64", "d")
  else if tchar = 70 then some ("float64", "f")
  else if tchar = 72 then some ("hash", "s")
  else if tchar = 65 then some ("address", "s")
  else if tchar = 84 then some ("time", "s")
  else none

/-- `key[..key.len() - 1]`: not a string when the last character has more than
one byte. -/
def keyName (key : Text) : Option Text := fromUtf8 key.bytes.dropLast

def rpcTypeErr (key : Text) (tchar : UInt8) (v : Cval) : Option Message := do
  let name ← keyName key
  let (tname, verb) ← typeTexts tchar
  let typei := if tchar = 73 then "typei" else "type"
  some (ascii "Name:" ++ name.bytes ++ ascii " Type:" ++ ascii tname ++ ascii " Value:'%!" ++
    ascii verb ++ ascii "(<nil>)' has invalid data " ++ ascii typei ++ ascii " " ++
    goTypeName v ++ ascii "\n")

end TypeError

/-- The value of an argument, `none` where its type does not admit the item. -/
def convert (tchar : UInt8) (v : Cval) : Option (Except Message ArgValue) :=
  if tchar = 73 then
    match v with
    | .i64 i => some (.ok (.int64 i))
    | .u64 u => some (.ok (.int64 u.toInt64))
    | _ => none
  else if tchar = 85 then
    match v with
    | .u64 u => some (.ok (.uint64 u))
    | _ => none
  else if tchar = 70 then
    match v with
    | .f64 f => some (.ok (.float64 f))
    | _ => none
  else if tchar = 72 then
    match v with
    | .bytes b => some (.ok (.hash (copyInto 32 b)))
    | _ => none
  else if tchar = 65 then
    match v with
    | .bytes b => some ((decodeAddressGo b).map .address)
    | _ => none
  else if tchar = 83 then
    match v with
    | .text s => some (.ok (.str s))
    | _ => none
  else if tchar = 84 then
    match v with
    | .time unix => some (.ok (.time unix))
    | _ => none
  else none

/-- One turn of the loop over the map; the outer `none` is a panic. -/
def readEntry (k : Text) (v : Cval) : Option (Except Message Argument) :=
  if k.bytes.length < 2 then
    some (.error (ascii "Invalid encoding for key '" ++ k.bytes ++ ascii "'"))
  else do
    let tchar ← k.bytes.getLast?
    if tchar ∉ typeChars then
      some (.error (ascii "I don't know about typeaa " ++ goTypeName v ++ ascii "  " ++ k.bytes ++
        ascii "!\n"))
    else
      match convert tchar v with
      | none => do
          let e ← rpcTypeErr k tchar v
          some (.error e)
      | some (.error e) => some (.error e)
      | some (.ok value) => do
          let name ← keyName k
          some (.ok { name, value })

def readEntries : List (Text × Cval) → Option (Except Message (List Argument))
  | [] => some (.ok [])
  | (k, v) :: localmap => do
      match ← readEntry k v with
      | .error e => some (.error e)
      | .ok arg =>
          match ← readEntries localmap with
          | .error e => some (.error e)
          | .ok args => some (.ok (arg :: args))

/-- The stable sort by name. -/
def sortByName (args : List Argument) : List Argument :=
  args.insertionSort fun a b => a.name.bytes ≤ b.name.bytes

/-- `none` is a panic. -/
def unmarshalBinaryExact (data : List UInt8) : Option (Except Message (List Argument)) := do
  match ← cborUnmarshalLocalmap data with
  | .error e => some (.error e)
  | .ok localmap =>
      match ← readEntries localmap with
      | .error e => some (.error e)
      | .ok args => some (.ok (sortByName args))

end DirtybirdMiner.Args.Arguments
