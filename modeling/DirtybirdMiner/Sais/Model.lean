import DirtybirdMiner.Lib.Checked
import Mathlib.Algebra.Group.Int.Defs
import Mathlib.Algebra.Group.Nat.Defs

/-!
The SA-IS suffix-array construction of `sais32.rs` and `sais16.rs`.

The source has the algorithm four times: `_8_32` and `_8_16` read bytes,
`_32` and `_16` read the integer text of the recursion.  Here every pass is
written once over a `Family`, and the source's functions are its instances.
Machine integers are `Int`; `none` is a panic.
-/

namespace DirtybirdMiner.Sais.Model

open DirtybirdMiner.Lib.Checked

/-- What the four copies of the algorithm differ in: the width of the entries
of `sa` and `tmp`, whether the text is made of bytes, and whether bucket totals
are accumulated with `wrapping_add`. -/
structure Family where
  bits : Nat
  byteText : Bool
  wrapTotals : Bool

def family_8_32 : Family := ⟨32, true, false⟩
def family_32 : Family := ⟨32, false, false⟩
def family_8_16 : Family := ⟨16, true, true⟩
def family_16 : Family := ⟨16, false, true⟩

/-- `x as iN`. -/
def Family.cast (F : Family) (x : Int) : Int := x.bmod (2 ^ F.bits)

/-- `x as uN`. -/
def Family.unsigned (F : Family) (x : Int) : Nat := (x % 2 ^ F.bits).toNat

/-- The result of an `iN` operation, which panics on overflow. -/
def Family.checked (F : Family) (x : Int) : Option Int :=
  if -2 ^ (F.bits - 1) ≤ x ∧ x < 2 ^ (F.bits - 1) then some x else none

/-- `total + n`, or `total.wrapping_add(n)` in the 16-bit files. -/
def Family.addTotal (F : Family) (total n : Int) : Option Int :=
  if F.wrapTotals then some (F.cast (total + n)) else F.checked (total + n)

/-- `x as usize` for a signed `x`. -/
def usize (x : Int) : Nat := (x % 2 ^ 64).toNat

/-- The number of entries of the frequency and bucket tables. -/
def Family.tableLen (F : Family) (textMax : Nat) : Nat :=
  if F.byteText then 256 else textMax

/-- `boff`: where the bucket table starts within `tmp`. -/
def Family.boff (F : Family) (textMax : Nat) (haveFreq : Bool) : Nat :=
  if F.byteText || haveFreq then textMax else 0

def freq (F : Family) (text : Array Int) (textMax : Nat) (tmp : Array Int)
    (haveFreq : Bool) : Option (Nat × Array Int) := do
  let done ← if haveFreq then tmp[0]?.map (fun f => decide (0 ≤ f)) else some false
  if done then
    some (0, tmp)
  else do
    let off := if F.byteText && !haveFreq then textMax else 0
    let tmp ← forUp (fun i tmp => put tmp (off + i) 0) 0 (F.tableLen textMax) tmp
    let tmp ← forEach (fun c tmp => do
      let f ← tmp[off + usize c]?
      let f ← F.checked (f + 1)
      put tmp (off + usize c) f) text.toList tmp
    some (off, tmp)

def bucketMin (F : Family) (text : Array Int) (textMax : Nat) (tmp : Array Int)
    (haveFreq : Bool) : Option (Array Int) := do
  let (foff, tmp) ← freq F text textMax tmp haveFreq
  let boff := F.boff textMax haveFreq
  let (tmp, _) ← forUp (fun i (st : Array Int × Int) => do
    let n ← st.1[foff + i]?
    let tmp ← put st.1 (boff + i) st.2
    let total ← F.addTotal st.2 n
    some (tmp, total)) 0 (F.tableLen textMax) (tmp, 0)
  some tmp

def bucketMax (F : Family) (text : Array Int) (textMax : Nat) (tmp : Array Int)
    (haveFreq : Bool) : Option (Array Int) := do
  let (foff, tmp) ← freq F text textMax tmp haveFreq
  let boff := F.boff textMax haveFreq
  let (tmp, _) ← forUp (fun i (st : Array Int × Int) => do
    let n ← st.1[foff + i]?
    let total ← F.addTotal st.2 n
    let tmp ← put st.1 (boff + i) total
    some (tmp, total)) 0 (F.tableLen textMax) (tmp, 0)
  some tmp

/-- The "LMS-substring iterator" that the source repeats in several passes:
scan the text backwards, keeping the previous character and the type.  `visit`
runs at every position, `found j c` at every start `j` of an LMS-substring,
with `c` its first character. -/
def lmsScan {σ : Type} (text : Array Int) (visit : Int → σ → σ)
    (found : Nat → Int → σ → Option σ) (s : σ) : Option σ := do
  let (_, _, s) ← forDown (fun i (st : Int × Bool × σ) => do
    let (c1, isTypeS, s) := st
    let c0 ← text[i]?
    let s := visit c1 s
    if c0 < c1 then
      some (c0, true, s)
    else if c0 > c1 && isTypeS then do
      let s ← found (i + 1) c1 s
      some (c0, false, s)
    else
      some (c0, isTypeS, s)) text.size (0, false, s)
  some s

structure PlaceState where
  sa : Array Int
  tmp : Array Int
  numLms : Nat
  lastB : Int

def placeLms (F : Family) (text sa : Array Int) (textMax : Nat) (tmp : Array Int)
    (haveFreq : Bool) : Option (Nat × Array Int × Array Int) := do
  let tmp ← bucketMax F text textMax tmp haveFreq
  let boff := F.boff textMax haveFreq
  let st ← lmsScan text (fun _ st => st) (fun j c1 (st : PlaceState) => do
    -- Bucket the index i+1 for the start of an LMS-substring.
    let b ← st.tmp[boff + usize c1]?
    let b ← F.checked (b - 1)
    let tmp ← put st.tmp (boff + usize c1) b
    let sa ← put st.sa (usize b) (F.cast j)
    some ⟨sa, tmp, st.numLms + 1, b⟩) ⟨sa, tmp, 0, -1⟩
  let sa ← if st.numLms > 1 then put st.sa (usize st.lastB) 0 else some st.sa
  some (st.numLms, sa, st.tmp)

/-- The arrays of an inducing pass with the cached bucket: its character `cB`
and its current bound `b`, not yet written back to `tmp`. -/
structure InduceState where
  sa : Array Int
  tmp : Array Int
  cB : Int
  b : Int

/-- `if c_b != c1 { tmp[boff + c_b] = b; c_b = c1; b = tmp[boff + c_b]; }` -/
def selectBucket (boff : Nat) (c1 : Int) (st : InduceState) : Option InduceState :=
  if st.cB ≠ c1 then do
    let tmp ← put st.tmp (boff + usize st.cB) st.b
    let b ← tmp[boff + usize c1]?
    some { st with tmp := tmp, cB := c1, b := b }
  else
    some st

/-- `sa[b] = k; b += 1` in the bucket of `c1`. -/
def placeUp (F : Family) (boff : Nat) (c1 k : Int) (st : InduceState) : Option InduceState := do
  let st ← selectBucket boff c1 st
  let sa ← put st.sa (usize st.b) (F.cast k)
  let b ← F.checked (st.b + 1)
  some { st with sa := sa, b := b }

/-- `b -= 1; sa[b] = k` in the bucket of `c1`. -/
def placeDown (F : Family) (boff : Nat) (c1 k : Int) (st : InduceState) :
    Option InduceState := do
  let st ← selectBucket boff c1 st
  let b ← F.checked (st.b - 1)
  let sa ← put st.sa (usize b) (F.cast k)
  some { st with sa := sa, b := b }

/-- The implicit entry `sa[-1] == len(text)`: place index `len(text) - 1`. -/
def placeLast (F : Family) (text sa tmp : Array Int) (boff : Nat) : Option InduceState := do
  let k : Int := text.size - 1
  let c0 ← text[usize (k - 1)]?
  let c1 ← text[usize k]?
  let k := if c0 < c1 then -k else k
  let b ← tmp[boff + usize c1]?
  placeUp F boff c1 k ⟨sa, tmp, c1, b⟩

def induceSubLStep (F : Family) (text : Array Int) (boff i : Nat) (st : InduceState) :
    Option InduceState := do
  let j ← st.sa[i]?
  if j = 0 then
    some st
  else if j < 0 then do
    -- Leave discovered type-S index for caller.
    let sa ← put st.sa i (F.cast (-j))
    some { st with sa := sa }
  else do
    let sa ← put st.sa i 0
    let k := j - 1
    let c0 ← text[usize (k - 1)]?
    let c1 ← text[usize k]?
    let k := if c0 < c1 then -k else k
    placeUp F boff c1 k { st with sa := sa }

def induceSubL (F : Family) (text sa : Array Int) (textMax : Nat) (tmp : Array Int)
    (haveFreq : Bool) : Option (Array Int × Array Int) := do
  let tmp ← bucketMin F text textMax tmp haveFreq
  let boff := F.boff textMax haveFreq
  let st ← placeLast F text sa tmp boff
  let st ← forUp (induceSubLStep F text boff) 0 st.sa.size st
  some (st.sa, st.tmp)

def induceSubSStep (F : Family) (text : Array Int) (boff i : Nat) (st : InduceState × Nat) :
    Option (InduceState × Nat) := do
  let (st, top) := st
  let j ← st.sa[i]?
  if j = 0 then
    some (st, top)
  else do
    let sa ← put st.sa i 0
    if j < 0 then do
      -- Leave discovered LMS-substring start index for caller.
      require (0 < top)
      let sa ← put sa (top - 1) (F.cast (-j))
      some ({ st with sa := sa }, top - 1)
    else do
      let k := j - 1
      let c1 ← text[usize k]?
      let c0 ← text[usize (k - 1)]?
      let k := if c0 > c1 then -k else k
      let st ← placeDown F boff c1 k { st with sa := sa }
      some (st, top)

def induceSubS (F : Family) (text sa : Array Int) (textMax : Nat) (tmp : Array Int)
    (haveFreq : Bool) : Option (Array Int × Array Int) := do
  let tmp ← bucketMax F text textMax tmp haveFreq
  let boff := F.boff textMax haveFreq
  let b ← tmp[boff + usize 0]?
  let (st, _) ← forDown (induceSubSStep F text boff) sa.size (⟨sa, tmp, 0, b⟩, sa.size)
  some (st.sa, st.tmp)

/-- The running state of `length`: where the next LMS-substring ends (0 for the
final one), and the packed bytes, kept by the byte families only. -/
structure LengthState where
  sa : Array Int
  stop : Nat
  cx : Nat

/-- `c.wrapping_add(1)` of a byte. -/
def packByte (c : Int) : Nat := ((c + 1) % 256).toNat

/-- `cx = cx << 8 | c1.wrapping_add(1)`, in the byte families. -/
def lengthVisit (F : Family) (c1 : Int) (st : LengthState) : LengthState :=
  if F.byteText then { st with cx := (st.cx * 256 + packByte c1) % 2 ^ F.bits } else st

def lengthFound (F : Family) (n j : Nat) (c1 : Int) (st : LengthState) :
    Option LengthState := do
  require (j ≤ st.stop ∨ st.stop = 0)
  let code : Int :=
    if st.stop = 0 then 0
    else
      let code := F.cast ((st.stop - j : Nat) : Int)
      -- Short substrings are packed directly, if that does not look like a length.
      if F.byteText = true ∧ code ≤ F.bits / 8 ∧ 2 ^ F.bits - 1 - st.cx ≥ n % 2 ^ F.bits then
        F.cast ((2 ^ F.bits - 1 - st.cx : Nat) : Int)
      else code
  let sa ← put st.sa (j / 2) code
  some ⟨sa, j + 1, if F.byteText then packByte c1 else st.cx⟩

def length (F : Family) (text sa : Array Int) : Option (Array Int) := do
  let st ← lmsScan text (lengthVisit F) (lengthFound F text.size) ⟨sa, 0, 0⟩
  some st.sa

/-- `&text[from..][..count]`. -/
def slice (text : Array Int) (start count : Nat) : Option (Array Int) :=
  if start + count ≤ text.size then some (text.extract start (start + count)) else none

structure AssignState where
  sa : Array Int
  id : Nat
  lastLen : Int
  lastPos : Int

/-- Is the LMS-substring at index `j`, with entry `n`, different from the last
one? -/
def isNew (F : Family) (text : Array Int) (n j : Int) (st : AssignState) : Option Bool :=
  if n ≠ st.lastLen then some true
  else if F.unsigned n ≥ text.size % 2 ^ F.bits then
    some false -- "Length" is really encoded full text, and they match.
  else do
    let this ← slice text (usize j) (usize n)
    let last ← slice text (usize st.lastPos) (usize n)
    some (decide (this ≠ last))

def assignIdStep (F : Family) (text : Array Int) (base idx : Nat) (st : AssignState) :
    Option AssignState := do
  let j ← st.sa[base + idx]?
  let n ← st.sa[usize (j.tdiv 2)]?
  let new ← isNew F text n j st
  let st := if new then { st with id := st.id + 1, lastPos := j, lastLen := n } else st
  let sa ← put st.sa (usize (j.tdiv 2)) (F.cast st.id)
  some { st with sa := sa }

def assignId (F : Family) (text sa : Array Int) (numLms : Nat) : Option (Nat × Array Int) := do
  require (numLms ≤ sa.size)
  let st ← forUp (assignIdStep F text (sa.size - numLms)) 0 numLms ⟨sa, 0, -1, 0⟩
  some (st.id, st.sa)

def mapStep (F : Family) (i : Nat) (st : Array Int × Nat) : Option (Array Int × Nat) := do
  let (sa, w) := st
  let j ← sa[i]?
  if j > 0 then do
    require (0 < w)
    let id ← F.checked (j - 1)
    let sa ← put sa (w - 1) id
    some (sa, w - 1)
  else
    some (sa, w)

/-- `map_32` and `map_16`: pack the subproblem (IDs minus 1) into the top of `sa`. -/
def map (F : Family) (sa : Array Int) : Option (Array Int) := do
  let (sa, _) ← forDown (mapStep F) (sa.size / 2 + 1) (sa, sa.size)
  some sa

/-- The type of `sais_32` and `sais_16`: text, alphabet size, `sa` and `tmp`. -/
abbrev Solver := Array Int → Nat → Array Int → Array Int → Option (Array Int × Array Int)

/-- `recurse_32`, `recurse_32_inner` and their 16-bit copies: solve the
subproblem at the right end of `sa` into its left end, with a fresh `tmp`. -/
def recurse (solve : Solver) (sa oldTmp : Array Int) (numLms maxId : Nat) :
    Option (Array Int) := do
  let len := sa.size
  require (2 * numLms ≤ len)
  let text := sa.extract (len - numLms) len
  let saTmpLen := len - 2 * numLms
  let chosenLen := oldTmp.size
  let chosenLen := if chosenLen < saTmpLen then saTmpLen else chosenLen
  let chosenLen :=
    if chosenLen < numLms then
      if maxId < numLms / 2 then numLms / 2 else maxId
    else chosenLen
  let tmp := Array.replicate chosenLen (0 : Int)
  let sa ← forUp (fun i sa => put sa i 0) 0 numLms sa
  let (dst, _) ← solve text maxId (sa.extract 0 numLms) tmp
  some (dst ++ sa.extract numLms len)

def unmapFound (F : Family) (base start : Nat) (st : Array Int × Nat) :
    Option (Array Int × Nat) := do
  let (sa, w) := st
  require (0 < w)
  let sa ← put sa (base + (w - 1)) (F.cast start)
  some (sa, w - 1)

def unmapStep (base i : Nat) (sa : Array Int) : Option (Array Int) := do
  let k ← sa[i]?
  let v ← sa[base + usize k]?
  put sa i v

def unmap (F : Family) (text sa : Array Int) (numLms : Nat) : Option (Array Int) := do
  require (numLms ≤ sa.size)
  let base := sa.size - numLms
  let (sa, _) ← lmsScan text (fun _ st => st) (fun start _ => unmapFound F base start) (sa, numLms)
  forUp (unmapStep base) 0 numLms sa

structure ExpandState where
  sa : Array Int
  tmp : Array Int
  x : Nat
  saX : Int
  b : Int

/-- `b = tmp[boff + c] - 1; tmp[boff + c] = b` for the character `c` at `saX`. -/
def expandSlot (F : Family) (text : Array Int) (boff : Nat) (saX : Int) (tmp : Array Int) :
    Option (Int × Array Int) := do
  let c ← text[usize saX]?
  let b ← tmp[boff + usize c]?
  let b ← F.checked (b - 1)
  let tmp ← put tmp (boff + usize c) b
  some (b, tmp)

def expandStep (F : Family) (text : Array Int) (boff i : Nat) (st : ExpandState) :
    Option ExpandState :=
  if F.cast i ≠ st.b then do
    let sa ← put st.sa i 0
    some { st with sa := sa }
  else do
    let sa ← put st.sa i st.saX
    if st.x > 0 then do
      -- Load next entry to put down (if any).
      let x := st.x - 1
      let saX ← sa[x]?
      let (b, tmp) ← expandSlot F text boff saX st.tmp
      some ⟨sa, tmp, x, saX, b⟩
    else
      some { st with sa := sa }

def expand (F : Family) (text sa : Array Int) (textMax : Nat) (tmp : Array Int)
    (haveFreq : Bool) (numLms : Nat) : Option (Array Int × Array Int) := do
  let tmp ← bucketMax F text textMax tmp haveFreq
  let boff := F.boff textMax haveFreq
  require (0 < numLms)
  let x := numLms - 1
  let saX ← sa[x]?
  let (b, tmp) ← expandSlot F text boff saX tmp
  let st ← forDown (expandStep F text boff) sa.size ⟨sa, tmp, x, saX, b⟩
  some (st.sa, st.tmp)

def induceLStep (F : Family) (text : Array Int) (boff i : Nat) (st : InduceState) :
    Option InduceState := do
  let j ← st.sa[i]?
  if j ≤ 0 then
    some st -- Skip empty or negated entry (including negated zero).
  else do
    let k := j - 1
    let c1 ← text[usize k]?
    let k ←
      if k > 0 then do
        let c0 ← text[usize (k - 1)]?
        some (if c0 < c1 then -k else k)
      else some k
    placeUp F boff c1 k st

def induceL (F : Family) (text sa : Array Int) (textMax : Nat) (tmp : Array Int)
    (haveFreq : Bool) : Option (Array Int × Array Int) := do
  let tmp ← bucketMin F text textMax tmp haveFreq
  let boff := F.boff textMax haveFreq
  let st ← placeLast F text sa tmp boff
  let st ← forUp (induceLStep F text boff) 0 st.sa.size st
  some (st.sa, st.tmp)

def induceSStep (F : Family) (text : Array Int) (boff i : Nat) (st : InduceState) :
    Option InduceState := do
  let j ← st.sa[i]?
  if j ≥ 0 then
    some st -- Skip non-flagged entry.
  else do
    let j := -j
    let sa ← put st.sa i (F.cast j)
    let k := j - 1
    let c1 ← text[usize k]?
    let k ←
      if k > 0 then do
        let c0 ← text[usize (k - 1)]?
        some (if c0 ≤ c1 then -k else k)
      else some k
    placeDown F boff c1 k { st with sa := sa }

def induceS (F : Family) (text sa : Array Int) (textMax : Nat) (tmp : Array Int)
    (haveFreq : Bool) : Option (Array Int × Array Int) := do
  let tmp ← bucketMax F text textMax tmp haveFreq
  let boff := F.boff textMax haveFreq
  let b ← tmp[boff + usize 0]?
  let st ← forDown (induceSStep F text boff) sa.size ⟨sa, tmp, 0, b⟩
  some (st.sa, st.tmp)

/-- Sort the LMS-suffixes into the low end of `sa`: sort their substrings, name
them, and recurse on the names when two substrings are equal. -/
def sortLms (F : Family) (solve : Solver) (text sa : Array Int) (textMax : Nat)
    (tmp : Array Int) (haveFreq : Bool) (numLms : Nat) : Option (Array Int × Array Int) := do
  let (sa, tmp) ← induceSubL F text sa textMax tmp haveFreq
  let (sa, tmp) ← induceSubS F text sa textMax tmp haveFreq
  let sa ← length F text sa
  let (maxId, sa) ← assignId F text sa numLms
  if maxId < numLms then do
    let sa ← map F sa
    let sa ← recurse solve sa tmp numLms maxId
    let sa ← unmap F text sa numLms
    some (sa, tmp)
  else do
    require (numLms ≤ sa.size)
    some (sa.extract (sa.size - numLms) sa.size ++ sa.extract numLms sa.size, tmp)

/-- Place the LMS-suffixes at their bucket ends in order. -/
def placeSortedLms (F : Family) (solve : Solver) (text sa : Array Int) (textMax : Nat)
    (tmp : Array Int) (haveFreq : Bool) : Option (Array Int × Array Int) := do
  let (numLms, sa, tmp) ← placeLms F text sa textMax tmp haveFreq
  if numLms ≤ 1 then
    some (sa, tmp) -- 0 or 1 items already sorted.
  else do
    let (sa, tmp) ← sortLms F solve text sa textMax tmp haveFreq numLms
    expand F text sa textMax tmp haveFreq numLms

/-- `if have_freq { tmp[0] = -1; }` -/
def markFreq (tmp : Array Int) (haveFreq : Bool) : Option (Array Int) :=
  if haveFreq then put tmp 0 (-1) else some tmp

/-- The common body of `sais_8_32`, `sais_32`, `sais_8_16` and `sais_16`. -/
def saisBody (F : Family) (solve : Solver) : Solver := fun text textMax sa tmp => do
  require (sa.size = text.size ∧ tmp.size ≥ textMax)
  if text.size = 0 then
    some (sa, tmp)
  else if text.size = 1 then do
    let sa ← put sa 0 0
    some (sa, tmp)
  else do
    let haveFreq := decide (tmp.size ≥ 2 * textMax)
    let tmp ← markFreq tmp haveFreq
    let (sa, tmp) ← placeSortedLms F solve text sa textMax tmp haveFreq
    let (sa, tmp) ← induceL F text sa textMax tmp haveFreq
    let (sa, tmp) ← induceS F text sa textMax tmp haveFreq
    let tmp ← put tmp 0 (-1)
    some (sa, tmp)

/-- The recursion level, for at most `depth` nested calls. -/
def saisRec (F : Family) : Nat → Solver
  | 0 => fun _ _ _ _ => none
  | depth + 1 => saisBody F (saisRec F depth)

/-- The subproblem of a text is shorter than the text, so its length bounds the
depth. -/
def sais_32 : Solver := fun text => saisRec family_32 (text.size + 1) text

def sais_16 : Solver := fun text => saisRec family_16 (text.size + 1) text

def sais_8_32 : Solver := saisBody family_8_32 sais_32

def sais_8_16 : Solver := saisBody family_8_16 sais_16

/-- The bytes of the text as the integers that the passes compare. -/
def widen (text : Array UInt8) : Array Int := text.map fun b => (b.toNat : Int)

def textMax8 : Nat := 256

/-- `suffix_array` of either file: the `_8_N` body over zeroed `sa` and `tmp`. -/
def suffixArrayOf (sais_8 : Solver) (text : Array UInt8) : Option (Array Int) := do
  let sa := Array.replicate text.size (0 : Int)
  let tmp := Array.replicate (2 * textMax8) (0 : Int)
  let (sa, _) ← sais_8 (widen text) textMax8 sa tmp
  some sa

/-- `sais32::suffix_array`. -/
def suffixArray32 (text : Array UInt8) : Option (Array Int) := suffixArrayOf sais_8_32 text

/-- `sais16::suffix_array`. -/
def suffixArray16 (text : Array UInt8) : Option (Array Int) := suffixArrayOf sais_8_16 text

/-- `sais16::suffix_array` with `+` in place of `wrapping_add`: the bucket totals
panic when they leave the range of `i16`. -/
def suffixArray16Checked (text : Array UInt8) : Option (Array Int) :=
  suffixArrayOf (saisBody { family_8_16 with wrapTotals := false }
    fun text => saisRec { family_16 with wrapTotals := false } (text.size + 1) text) text

/-! The passes under the names that the source gives them. -/

section Members_8_32

def freq_8_32 := freq family_8_32
def bucketMin_8_32 := bucketMin family_8_32
def bucketMax_8_32 := bucketMax family_8_32
def placeLms_8_32 := placeLms family_8_32
def induceSubL_8_32 := induceSubL family_8_32
def induceSubS_8_32 := induceSubS family_8_32
def length_8_32 := length family_8_32
def assignId_8_32 := assignId family_8_32
def unmap_8_32 := unmap family_8_32
def expand_8_32 := expand family_8_32
def induceL_8_32 := induceL family_8_32
def induceS_8_32 := induceS family_8_32

end Members_8_32

section Members_32

def freq_32 := freq family_32
def bucketMin_32 := bucketMin family_32
def bucketMax_32 := bucketMax family_32
def placeLms_32 := placeLms family_32
def induceSubL_32 := induceSubL family_32
def induceSubS_32 := induceSubS family_32
def length_32 := length family_32
def assignId_32 := assignId family_32
def unmap_32 := unmap family_32
def expand_32 := expand family_32
def induceL_32 := induceL family_32
def induceS_32 := induceS family_32
def map_32 := map family_32
def recurse_32 := recurse sais_32

end Members_32

section Members_8_16

def freq_8_16 := freq family_8_16
def bucketMin_8_16 := bucketMin family_8_16
def bucketMax_8_16 := bucketMax family_8_16
def placeLms_8_16 := placeLms family_8_16
def induceSubL_8_16 := induceSubL family_8_16
def induceSubS_8_16 := induceSubS family_8_16
def length_8_16 := length family_8_16
def assignId_8_16 := assignId family_8_16
def unmap_8_16 := unmap family_8_16
def expand_8_16 := expand family_8_16
def induceL_8_16 := induceL family_8_16
def induceS_8_16 := induceS family_8_16

end Members_8_16

section Members_16

def freq_16 := freq family_16
def bucketMin_16 := bucketMin family_16
def bucketMax_16 := bucketMax family_16
def placeLms_16 := placeLms family_16
def induceSubL_16 := induceSubL family_16
def induceSubS_16 := induceSubS family_16
def length_16 := length family_16
def assignId_16 := assignId family_16
def unmap_16 := unmap family_16
def expand_16 := expand family_16
def induceL_16 := induceL family_16
def induceS_16 := induceS family_16
def map_16 := map family_16
def recurse_16 := recurse sais_16

end Members_16

end DirtybirdMiner.Sais.Model
