import DirtybirdMiner.Astro.Model

/-!
The scalar op kernel of the AstroBWTv3 loop, from `astrobwt/src/ops_generated.rs`: a body
of four statements for every op, which a loop runs on the bytes of a window.  All ops but
two transform the bytes of the window one by one.
-/

namespace DirtybirdMiner.Astro.Ops

open DirtybirdMiner.Astro.Model

section Scalar

def countOnes (x : UInt8) : UInt8 := UInt8.ofNat ((List.range 8).countP fun i => x.toNat.testBit i)

def rotateLeft (x : UInt8) (n : Nat) : UInt8 :=
  x <<< UInt8.ofNat (n % 8) ||| x >>> UInt8.ofNat ((8 - n % 8) % 8)

def reverseBits (x : UInt8) : UInt8 :=
  UInt8.ofNat ((List.range 8).foldl (fun r i => 2 * r + (x.toNat.testBit i).toNat) 0)

/-- The statements of the bodies, each of them about the byte `s[ii]`. -/
inductive Stmt where
  | xorCountOnes
  | rotateLeft (n : Nat)
  | mulSelf
  | rotateLeftSelf
  | shlSelf
  | andP2
  | addSelf
  | reverseBits
  | xorP2
  | not
  | shrSelf
  | subXor97
  | xorRotateLeft (n : Nat)
  deriving DecidableEq

/-- The byte that a statement writes, from the byte `x` and from `s[p2]`. -/
def Stmt.eval (x p2 : UInt8) : Stmt → UInt8
  | .xorCountOnes => x ^^^ countOnes x
  | .rotateLeft n => Ops.rotateLeft x n
  | .mulSelf => x * x
  | .rotateLeftSelf => Ops.rotateLeft x x.toNat
  | .shlSelf => x <<< (x &&& 3)
  | .andP2 => x &&& p2
  | .addSelf => x + x
  | .reverseBits => Ops.reverseBits x
  | .xorP2 => x ^^^ p2
  | .not => ~~~x
  | .shrSelf => x >>> (x &&& 3)
  | .subXor97 => x - (x ^^^ 97)
  | .xorRotateLeft n => x ^^^ Ops.rotateLeft x n

/-- The bodies, one for each op. -/
def bodies : List (List Stmt) := [
  [.xorCountOnes, .rotateLeft 5, .mulSelf, .rotateLeftSelf],  -- 0
  [.shlSelf, .rotateLeft 1, .andP2, .addSelf],
  [.xorCountOnes, .reverseBits, .shlSelf, .xorCountOnes],
  [.rotateLeftSelf, .rotateLeft 3, .xorP2, .rotateLeft 1],
  [.not, .shrSelf, .rotateLeftSelf, .subXor97],
  [.xorCountOnes, .xorP2, .shlSelf, .shrSelf],
  [.shlSelf, .rotateLeft 3, .not, .subXor97],
  [.addSelf, .rotateLeftSelf, .xorCountOnes, .not],
  [.not, .rotateLeft 5, .rotateLeft 5, .shlSelf],
  [.xorP2, .xorRotateLeft 4, .shrSelf, .xorRotateLeft 2],
  [.not, .mulSelf, .rotateLeft 3, .mulSelf],
  [.rotateLeft 1, .rotateLeft 5, .andP2, .rotateLeftSelf],
  [.xorRotateLeft 2, .mulSelf, .xorRotateLeft 2, .not],
  [.rotateLeft 1, .xorP2, .shrSelf, .rotateLeft 5],
  [.shrSelf, .shlSelf, .mulSelf, .shlSelf],
  [.xorRotateLeft 2, .shlSelf, .andP2, .subXor97],
  [.xorRotateLeft 4, .mulSelf, .rotateLeft 1, .not],  -- 16
  [.xorP2, .mulSelf, .rotateLeft 5, .not],
  [.xorRotateLeft 4, .rotateLeft 3, .rotateLeft 1, .rotateLeft 5],
  [.subXor97, .rotateLeft 5, .shlSelf, .addSelf],
  [.andP2, .xorP2, .reverseBits, .xorRotateLeft 2],
  [.rotateLeft 1, .xorP2, .addSelf, .andP2],
  [.shlSelf, .reverseBits, .mulSelf, .rotateLeft 1],
  [.rotateLeft 3, .rotateLeft 1, .xorCountOnes, .andP2],
  [.addSelf, .shrSelf, .xorRotateLeft 4, .rotateLeft 5],
  [.xorCountOnes, .rotateLeft 3, .rotateLeftSelf, .subXor97],
  [.mulSelf, .xorCountOnes, .addSelf, .reverseBits],
  [.rotateLeft 5, .andP2, .xorRotateLeft 4, .rotateLeft 5],
  [.shlSelf, .addSelf, .addSelf, .rotateLeft 5],
  [.mulSelf, .xorP2, .shrSelf, .addSelf],
  [.andP2, .xorRotateLeft 4, .rotateLeft 5, .shlSelf],
  [.not, .xorRotateLeft 2, .shlSelf, .mulSelf],
  [.xorRotateLeft 2, .reverseBits, .rotateLeft 3, .xorRotateLeft 2],  -- 32
  [.rotateLeftSelf, .xorRotateLeft 4, .reverseBits, .mulSelf],
  [.subXor97, .shlSelf, .shlSelf, .subXor97],
  [.addSelf, .not, .rotateLeft 1, .xorP2],
  [.xorCountOnes, .rotateLeft 1, .xorRotateLeft 2, .rotateLeft 1],
  [.rotateLeftSelf, .shrSelf, .shrSelf, .mulSelf],
  [.shrSelf, .rotateLeft 3, .xorCountOnes, .rotateLeftSelf],
  [.xorRotateLeft 2, .xorP2, .shrSelf, .andP2],
  [.rotateLeftSelf, .xorP2, .xorCountOnes, .xorP2],
  [.rotateLeft 5, .subXor97, .rotateLeft 3, .xorRotateLeft 4],
  [.rotateLeft 1, .rotateLeft 3, .xorRotateLeft 2, .rotateLeftSelf],
  [.andP2, .addSelf, .andP2, .subXor97],
  [.xorCountOnes, .xorCountOnes, .rotateLeft 3, .rotateLeftSelf],
  [.rotateLeft 5, .rotateLeft 5, .andP2, .xorCountOnes],
  [.xorCountOnes, .addSelf, .rotateLeft 5, .xorRotateLeft 4],
  [.rotateLeft 5, .andP2, .rotateLeft 5, .shlSelf],
  [.rotateLeftSelf, .not, .not, .rotateLeft 5],  -- 48
  [.xorCountOnes, .addSelf, .reverseBits, .xorRotateLeft 4],
  [.reverseBits, .rotateLeft 3, .addSelf, .rotateLeft 1],
  [.xorP2, .xorRotateLeft 4, .xorRotateLeft 4, .rotateLeft 5],
  [.rotateLeftSelf, .shrSelf, .not, .xorCountOnes],
  [.addSelf, .xorCountOnes, .xorRotateLeft 4, .xorRotateLeft 4],
  [.reverseBits, .xorP2, .not, .not],
  [.reverseBits, .xorRotateLeft 4, .xorRotateLeft 4, .rotateLeft 1],
  [.xorRotateLeft 2, .mulSelf, .not, .rotateLeft 1],
  [.rotateLeftSelf, .rotateLeft 5, .rotateLeft 3, .reverseBits],
  [.reverseBits, .xorRotateLeft 2, .andP2, .addSelf],
  [.rotateLeft 1, .mulSelf, .rotateLeftSelf, .not],
  [.xorP2, .not, .mulSelf, .rotateLeft 3],
  [.rotateLeft 5, .shlSelf, .rotateLeft 3, .rotateLeft 5],
  [.andP2, .not, .xorRotateLeft 2, .addSelf],
  [.rotateLeft 5, .xorCountOnes, .subXor97, .addSelf],
  [.xorP2, .reverseBits, .xorRotateLeft 4, .mulSelf],  -- 64
  [.rotateLeft 5, .rotateLeft 3, .xorRotateLeft 2, .mulSelf],
  [.xorRotateLeft 2, .reverseBits, .xorRotateLeft 4, .rotateLeft 1],
  [.rotateLeft 1, .xorCountOnes, .xorRotateLeft 2, .rotateLeft 5],
  [.andP2, .not, .xorRotateLeft 4, .xorP2],
  [.addSelf, .mulSelf, .reverseBits, .shrSelf],
  [.xorP2, .mulSelf, .shrSelf, .xorRotateLeft 4],
  [.rotateLeft 5, .not, .mulSelf, .shlSelf],
  [.reverseBits, .xorCountOnes, .xorP2, .shlSelf],
  [.xorCountOnes, .reverseBits, .rotateLeft 5, .subXor97],
  [.mulSelf, .rotateLeft 3, .reverseBits, .andP2],
  [.mulSelf, .xorCountOnes, .andP2, .xorRotateLeft 4],
  [.rotateLeftSelf, .xorRotateLeft 2, .rotateLeft 5, .shrSelf],
  [.rotateLeft 3, .addSelf, .shlSelf, .xorCountOnes],
  [.rotateLeftSelf, .reverseBits, .mulSelf, .subXor97],
  [.xorRotateLeft 4, .xorRotateLeft 2, .addSelf, .mulSelf],
  [.rotateLeftSelf, .shlSelf, .addSelf, .andP2],  -- 80
  [.xorRotateLeft 4, .shlSelf, .rotateLeftSelf, .xorCountOnes],
  [.xorP2, .not, .not, .shrSelf],
  [.shlSelf, .reverseBits, .rotateLeft 3, .reverseBits],
  [.subXor97, .rotateLeft 1, .shlSelf, .addSelf],
  [.shrSelf, .xorP2, .rotateLeftSelf, .shlSelf],
  [.xorRotateLeft 4, .rotateLeftSelf, .xorRotateLeft 4, .not],
  [.addSelf, .rotateLeft 3, .xorRotateLeft 4, .addSelf],
  [.xorRotateLeft 2, .rotateLeft 1, .mulSelf, .not],
  [.addSelf, .mulSelf, .not, .xorRotateLeft 2],
  [.reverseBits, .rotateLeft 5, .rotateLeft 1, .shrSelf],
  [.xorCountOnes, .andP2, .xorRotateLeft 4, .reverseBits],
  [.xorCountOnes, .not, .xorCountOnes, .andP2],
  [.xorRotateLeft 2, .mulSelf, .andP2, .addSelf],
  [.rotateLeft 1, .rotateLeftSelf, .andP2, .shlSelf],
  [.rotateLeft 1, .not, .rotateLeft 5, .rotateLeft 5],
  [.xorRotateLeft 2, .xorRotateLeft 2, .xorCountOnes, .rotateLeft 1],  -- 96
  [.rotateLeft 1, .shlSelf, .xorCountOnes, .shrSelf],
  [.xorRotateLeft 4, .shlSelf, .shrSelf, .xorRotateLeft 4],
  [.xorRotateLeft 4, .subXor97, .reverseBits, .shrSelf],
  [.rotateLeftSelf, .shlSelf, .reverseBits, .xorCountOnes],
  [.shrSelf, .xorCountOnes, .shrSelf, .not],
  [.rotateLeft 3, .subXor97, .addSelf, .rotateLeft 3],
  [.rotateLeft 1, .reverseBits, .xorP2, .rotateLeftSelf],
  [.reverseBits, .xorCountOnes, .rotateLeft 5, .addSelf],
  [.shlSelf, .rotateLeft 3, .rotateLeftSelf, .xorRotateLeft 2],
  [.reverseBits, .xorRotateLeft 4, .rotateLeft 1, .mulSelf],
  [.shrSelf, .xorRotateLeft 2, .rotateLeft 5, .rotateLeft 1],
  [.xorP2, .not, .andP2, .xorRotateLeft 2],
  [.mulSelf, .rotateLeftSelf, .xorP2, .xorRotateLeft 2],
  [.addSelf, .xorRotateLeft 2, .xorRotateLeft 2, .shrSelf],
  [.mulSelf, .reverseBits, .mulSelf, .shrSelf],
  [.rotateLeft 3, .not, .rotateLeft 5, .subXor97],  -- 112
  [.rotateLeft 5, .rotateLeft 1, .xorCountOnes, .not],
  [.rotateLeft 1, .reverseBits, .rotateLeftSelf, .not],
  [.rotateLeftSelf, .rotateLeft 5, .andP2, .rotateLeft 3],
  [.andP2, .xorP2, .xorCountOnes, .shlSelf],
  [.shlSelf, .rotateLeft 3, .shlSelf, .andP2],
  [.shrSelf, .addSelf, .shlSelf, .rotateLeft 5],
  [.reverseBits, .xorRotateLeft 2, .not, .xorP2],
  [.xorRotateLeft 2, .mulSelf, .xorP2, .reverseBits],
  [.shrSelf, .addSelf, .xorCountOnes, .mulSelf],
  [.xorRotateLeft 4, .rotateLeftSelf, .rotateLeft 5, .xorRotateLeft 2],
  [.andP2, .not, .rotateLeft 3, .rotateLeft 3],
  [.xorRotateLeft 2, .xorRotateLeft 2, .xorP2, .not],
  [.reverseBits, .xorRotateLeft 2, .addSelf, .shrSelf],
  [.rotateLeft 3, .rotateLeft 1, .rotateLeft 5, .reverseBits],
  [.shlSelf, .mulSelf, .andP2, .xorP2],
  [.rotateLeftSelf, .xorRotateLeft 2, .xorRotateLeft 2, .rotateLeft 5],  -- 128
  [.not, .xorCountOnes, .xorCountOnes, .shrSelf],
  [.shrSelf, .rotateLeftSelf, .rotateLeft 1, .xorRotateLeft 4],
  [.subXor97, .rotateLeft 1, .xorCountOnes, .mulSelf],
  [.andP2, .reverseBits, .rotateLeft 5, .xorRotateLeft 2],
  [.xorP2, .rotateLeft 5, .xorRotateLeft 2, .shlSelf],
  [.not, .xorRotateLeft 4, .rotateLeft 1, .andP2],
  [.shrSelf, .xorRotateLeft 2, .addSelf, .reverseBits],
  [.shrSelf, .subXor97, .xorP2, .rotateLeft 5],
  [.rotateLeft 5, .shrSelf, .reverseBits, .rotateLeftSelf],
  [.xorP2, .xorP2, .addSelf, .subXor97],
  [.rotateLeft 5, .rotateLeft 3, .xorRotateLeft 2, .rotateLeft 3],
  [.rotateLeft 1, .xorRotateLeft 2, .xorP2, .rotateLeft 5],
  [.rotateLeft 1, .subXor97, .xorCountOnes, .addSelf],
  [.andP2, .rotateLeft 5, .reverseBits, .xorRotateLeft 2],
  [.andP2, .rotateLeft 3, .shrSelf, .shlSelf],
  [.rotateLeftSelf, .shlSelf, .not, .rotateLeftSelf],  -- 144
  [.reverseBits, .xorRotateLeft 4, .xorRotateLeft 2, .xorRotateLeft 4],
  [.andP2, .shlSelf, .andP2, .xorCountOnes],
  [.not, .shlSelf, .xorRotateLeft 4, .mulSelf],
  [.andP2, .rotateLeft 5, .shlSelf, .subXor97],
  [.xorP2, .reverseBits, .subXor97, .addSelf],
  [.shlSelf, .shlSelf, .shlSelf, .andP2],
  [.addSelf, .shlSelf, .mulSelf, .shlSelf],
  [.shrSelf, .not, .shlSelf, .xorRotateLeft 2],
  [.rotateLeft 1, .rotateLeft 3, .not, .not],
  [.rotateLeft 5, .not, .xorP2, .xorCountOnes],
  [.subXor97, .xorP2, .xorCountOnes, .xorP2],
  [.shrSelf, .shrSelf, .rotateLeft 3, .rotateLeft 1],
  [.shrSelf, .shlSelf, .rotateLeftSelf, .rotateLeft 1],
  [.xorCountOnes, .rotateLeft 3, .addSelf, .rotateLeft 1],
  [.subXor97, .xorP2, .rotateLeftSelf, .xorP2],
  [.shrSelf, .reverseBits, .rotateLeft 1, .rotateLeft 3],  -- 160
  [.xorP2, .xorP2, .rotateLeft 5, .rotateLeftSelf],
  [.mulSelf, .reverseBits, .xorRotateLeft 2, .subXor97],
  [.shlSelf, .subXor97, .xorRotateLeft 4, .rotateLeft 1],
  [.mulSelf, .xorCountOnes, .subXor97, .not],
  [.xorRotateLeft 4, .xorP2, .shlSelf, .addSelf],
  [.rotateLeft 3, .addSelf, .xorRotateLeft 2, .not],
  [.not, .not, .mulSelf, .shrSelf],
  [.rotateLeftSelf, .andP2, .rotateLeftSelf, .rotateLeft 1],
  [.rotateLeft 1, .shlSelf, .xorRotateLeft 4, .andP2],
  [.subXor97, .reverseBits, .subXor97, .mulSelf],
  [.rotateLeft 3, .subXor97, .xorCountOnes, .reverseBits],
  [.xorRotateLeft 4, .subXor97, .shlSelf, .rotateLeft 1],
  [.not, .shlSelf, .mulSelf, .addSelf],
  [.not, .rotateLeftSelf, .xorCountOnes, .xorCountOnes],
  [.rotateLeft 3, .subXor97, .mulSelf, .rotateLeft 5],
  [.xorP2, .mulSelf, .xorP2, .rotateLeft 5],  -- 176
  [.xorCountOnes, .xorRotateLeft 2, .xorRotateLeft 2, .andP2],
  [.andP2, .addSelf, .not, .rotateLeft 1],
  [.xorRotateLeft 2, .addSelf, .shrSelf, .reverseBits],
  [.shrSelf, .xorRotateLeft 4, .xorP2, .subXor97],
  [.not, .shlSelf, .xorRotateLeft 2, .rotateLeft 5],
  [.xorP2, .rotateLeft 1, .rotateLeft 5, .xorRotateLeft 4],
  [.addSelf, .subXor97, .subXor97, .mulSelf],
  [.shlSelf, .mulSelf, .rotateLeft 5, .xorP2],
  [.not, .xorRotateLeft 4, .rotateLeft 5, .shrSelf],
  [.xorRotateLeft 2, .xorRotateLeft 4, .subXor97, .shrSelf],
  [.xorP2, .not, .addSelf, .rotateLeft 3],
  [.xorRotateLeft 4, .xorCountOnes, .xorRotateLeft 4, .xorRotateLeft 4],
  [.rotateLeft 5, .xorRotateLeft 4, .xorP2, .subXor97],
  [.rotateLeft 5, .shrSelf, .andP2, .xorRotateLeft 2],
  [.addSelf, .rotateLeft 3, .rotateLeftSelf, .shrSelf],
  [.addSelf, .shlSelf, .addSelf, .mulSelf],  -- 192
  [.andP2, .shlSelf, .rotateLeftSelf, .rotateLeft 1],
  [.andP2, .rotateLeftSelf, .shlSelf, .andP2],
  [.xorCountOnes, .xorRotateLeft 2, .xorP2, .xorRotateLeft 4],
  [.rotateLeft 3, .reverseBits, .shlSelf, .rotateLeft 1],
  [.xorRotateLeft 4, .rotateLeftSelf, .mulSelf, .mulSelf],
  [.shrSelf, .shrSelf, .reverseBits, .rotateLeft 1],
  [.not, .addSelf, .mulSelf, .xorP2],
  [.shrSelf, .xorCountOnes, .reverseBits, .reverseBits],
  [.rotateLeft 3, .xorRotateLeft 2, .xorRotateLeft 4, .not],
  [.xorP2, .not, .rotateLeftSelf, .rotateLeft 5],
  [.xorP2, .andP2, .rotateLeft 1, .rotateLeftSelf],
  [.rotateLeft 5, .xorRotateLeft 2, .rotateLeftSelf, .xorP2],
  [.xorCountOnes, .xorRotateLeft 4, .shlSelf, .addSelf],
  [.xorRotateLeft 4, .reverseBits, .reverseBits, .xorCountOnes],
  [.rotateLeft 5, .rotateLeft 3, .xorCountOnes, .xorCountOnes],
  [.addSelf, .addSelf, .shrSelf, .rotateLeft 3],  -- 208
  [.rotateLeft 5, .reverseBits, .xorCountOnes, .subXor97],
  [.xorRotateLeft 2, .rotateLeftSelf, .rotateLeft 5, .not],
  [.xorRotateLeft 4, .addSelf, .subXor97, .rotateLeftSelf],
  [.rotateLeftSelf, .xorRotateLeft 2, .xorP2, .xorP2],
  [.addSelf, .shlSelf, .rotateLeft 3, .subXor97],
  [.xorP2, .subXor97, .shrSelf, .not],
  [.xorP2, .andP2, .shlSelf, .mulSelf],
  [.rotateLeftSelf, .not, .subXor97, .andP2],
  [.rotateLeft 5, .addSelf, .rotateLeft 1, .xorRotateLeft 4],
  [.reverseBits, .not, .mulSelf, .subXor97],
  [.xorRotateLeft 4, .rotateLeft 3, .andP2, .reverseBits],
  [.rotateLeft 1, .shlSelf, .reverseBits, .shlSelf],
  [.rotateLeft 5, .xorP2, .not, .reverseBits],
  [.shrSelf, .shlSelf, .xorP2, .mulSelf],
  [.rotateLeft 3, .xorP2, .rotateLeftSelf, .subXor97],
  [.xorRotateLeft 2, .rotateLeft 1, .rotateLeft 3, .shlSelf],  -- 224
  [.not, .shrSelf, .reverseBits, .rotateLeft 3],
  [.reverseBits, .subXor97, .mulSelf, .xorP2],
  [.not, .shlSelf, .subXor97, .andP2],
  [.addSelf, .shrSelf, .addSelf, .xorCountOnes],
  [.rotateLeft 3, .rotateLeftSelf, .xorRotateLeft 2, .xorCountOnes],
  [.mulSelf, .andP2, .rotateLeftSelf, .rotateLeftSelf],
  [.rotateLeft 3, .shrSelf, .xorP2, .reverseBits],
  [.mulSelf, .mulSelf, .xorRotateLeft 4, .rotateLeft 5],
  [.rotateLeft 1, .xorCountOnes, .rotateLeft 3, .xorCountOnes],
  [.andP2, .mulSelf, .shrSelf, .xorP2],
  [.xorRotateLeft 2, .mulSelf, .rotateLeft 3, .not],
  [.xorP2, .addSelf, .andP2, .subXor97],
  [.rotateLeft 5, .shlSelf, .xorRotateLeft 2, .rotateLeft 3],
  [.addSelf, .addSelf, .rotateLeft 3, .subXor97],
  [.rotateLeft 5, .rotateLeft 1, .mulSelf, .andP2],
  [.not, .addSelf, .andP2, .shlSelf],  -- 240
  [.xorRotateLeft 4, .xorCountOnes, .xorP2, .rotateLeft 1],
  [.addSelf, .addSelf, .subXor97, .xorP2],
  [.rotateLeft 5, .xorRotateLeft 2, .xorCountOnes, .rotateLeft 1],
  [.not, .xorRotateLeft 2, .reverseBits, .rotateLeft 5],
  [.subXor97, .rotateLeft 5, .xorRotateLeft 2, .shrSelf],
  [.addSelf, .rotateLeft 1, .shrSelf, .addSelf],
  [.rotateLeft 5, .xorRotateLeft 2, .rotateLeft 5, .not],
  [.not, .subXor97, .xorCountOnes, .rotateLeft 5],
  [.reverseBits, .xorRotateLeft 4, .xorRotateLeft 4, .rotateLeftSelf],
  [.andP2, .rotateLeftSelf, .xorCountOnes, .xorRotateLeft 4],
  [.addSelf, .xorCountOnes, .reverseBits, .xorRotateLeft 2],
  [.reverseBits, .xorRotateLeft 4, .xorRotateLeft 2, .shlSelf],
  [.rotateLeft 3, .xorRotateLeft 2, .xorP2, .rotateLeft 3],
  [.xorCountOnes, .rotateLeft 3, .xorRotateLeft 2, .rotateLeft 3],
  [.xorCountOnes, .rotateLeft 3, .xorRotateLeft 2, .rotateLeft 3]]

def Stmt.run (p2 i : UInt8) (s : Block256) (t : Stmt) : Block256 :=
  setByte s i (t.eval (byteAt s i) (byteAt s p2))

variable (xxh64 : List UInt8 → UInt64)

/-- One turn of the loop of an op.  Op 0 also swaps two bytes, and op 253 also hashes. -/
def turn (op pos1 pos2 i : UInt8) (st : OpState) : OpState :=
  let s := (bodies.getD op.toNat []).foldl (Stmt.run pos2 i) st.step3
  if op = 0 then
    let a := reverseBits (byteAt s pos1)
    let b := reverseBits (byteAt s pos2)
    { st with step3 := setByte (setByte s pos2 a) pos1 b }
  else if op = 253 then
    { st with
      step3 := s
      prevLhash := st.lhash + st.prevLhash
      lhash := xxh64 (s.toList.take pos2.toNat) }
  else { st with step3 := s }

/-- `ops_generated::apply_op`.  Ops 254 and 255 first make a new cipher. -/
def applyOp (op pos1 pos2 : UInt8) (st : OpState) : OpState :=
  let st := if op ≥ 254 then { st with rc4 := Rc4.new st.step3 } else st
  (List.range (pos2.toNat - pos1.toNat)).foldl
    (fun st k => turn xxh64 op pos1 pos2 (pos1 + UInt8.ofNat k) st) st

end Scalar

section Effect

/-- The bytes of a window are transformed one by one. -/
def transformed (f : UInt8 → UInt8) (lo hi : Nat) (s : Block256) : Block256 :=
  Vector.ofFn fun i => if lo ≤ i.val ∧ i.val < hi then f (s.get i) else s.get i

theorem block_ext {s t : Block256} (h : ∀ i : Fin 256, s.get i = t.get i) : s = t := by
  apply Vector.ext
  intro i hi
  exact h ⟨i, hi⟩

@[simp] theorem get_transformed (f : UInt8 → UInt8) (lo hi : Nat) (s : Block256) (i : Fin 256) :
    (transformed f lo hi s).get i =
      if lo ≤ i.val ∧ i.val < hi then f (s.get i) else s.get i := by
  exact Vector.getElem_ofFn i.isLt

theorem get_setByte (s : Block256) (i v : UInt8) (k : Fin 256) :
    (setByte s i v).get k = if k.val = i.toNat then v else s.get k := by
  rw [if_congr eq_comm rfl rfl]
  exact Vector.getElem_set i.toNat_lt k.isLt

theorem setByte_self (s : Block256) (i v w : UInt8) :
    setByte (setByte s i v) i w = setByte s i w := by
  apply block_ext
  intro k
  rw [get_setByte, get_setByte, get_setByte]
  split <;> rfl

/-- The four statements, one after the other. -/
def evalBody (body : List Stmt) (p2 x : UInt8) : UInt8 := body.foldl (fun x t => t.eval x p2) x

theorem byteAt_setByte_self (s : Block256) (i v : UInt8) : byteAt (setByte s i v) i = v := by
  rw [byteAt, get_setByte, if_pos rfl]

theorem byteAt_setByte_ne (s : Block256) {i j : UInt8} (v : UInt8) (h : j.toNat ≠ i.toNat) :
    byteAt (setByte s i v) j = byteAt s j := by
  rw [byteAt, get_setByte, if_neg h, byteAt]

theorem setByte_byteAt (s : Block256) (i : UInt8) : setByte s i (byteAt s i) = s := by
  apply block_ext
  intro k
  rw [get_setByte, byteAt]
  split
  · rename_i hk
    congr 1
    exact Fin.ext hk.symm
  · rfl

/-- The statements of a body write one byte, and `s[p2]` is another one. -/
theorem foldl_run {p2 i : UInt8} (h : p2.toNat ≠ i.toNat) (body : List Stmt) (s : Block256) :
    body.foldl (Stmt.run p2 i) s = setByte s i (evalBody body (byteAt s p2) (byteAt s i)) := by
  induction body generalizing s with
  | nil => exact (setByte_byteAt s i).symm
  | cons t body ih =>
      rw [List.foldl_cons, ih, Stmt.run, setByte_self, byteAt_setByte_self, byteAt_setByte_ne s _ h]
      rfl

/-- The next byte of the window. -/
theorem setByte_transformed (f : UInt8 → UInt8) {lo : Nat} {i : UInt8} (hlo : lo ≤ i.toNat)
    (s : Block256) : setByte (transformed f lo i.toNat s) i (f (byteAt s i)) =
      transformed f lo (i.toNat + 1) s := by
  apply block_ext
  intro k
  rw [get_setByte, get_transformed, get_transformed]
  split
  · rename_i hk
    rw [if_pos (by omega), byteAt]
    congr 2
    apply Fin.ext
    exact hk.symm
  · rename_i hk
    have hiff : (lo ≤ k.val ∧ k.val < i.toNat) ↔ (lo ≤ k.val ∧ k.val < i.toNat + 1) := by omega
    rw [if_congr hiff rfl rfl]

theorem transformed_empty (f : UInt8 → UInt8) (lo : Nat) (s : Block256) :
    transformed f lo lo s = s := by
  apply block_ext
  intro k
  rw [get_transformed, if_neg (by omega)]

variable (xxh64 : List UInt8 → UInt64)

/-- The loop of an op that only transforms bytes. -/
theorem turns_eq {op pos1 pos2 : UInt8} (h0 : op ≠ 0) (h253 : op ≠ 253) (n : Nat)
    (hn : pos1.toNat + n ≤ pos2.toNat) (st : OpState) :
    (List.range n).foldl (fun st k => turn xxh64 op pos1 pos2 (pos1 + UInt8.ofNat k) st) st =
      { st with
        step3 := transformed (evalBody (bodies.getD op.toNat []) (byteAt st.step3 pos2)) pos1.toNat
          (pos1.toNat + n) st.step3 } := by
  induction n with
  | zero =>
      rw [Nat.add_zero, transformed_empty]
      rfl
  | succ n ih =>
      have hbyte := pos2.toNat_lt
      have hi : (pos1 + UInt8.ofNat n).toNat = pos1.toNat + n := by
        rw [UInt8.toNat_add, UInt8.toNat_ofNat']
        omega
      generalize hset : pos1 + UInt8.ofNat n = i at hi
      have hne : pos2.toNat ≠ i.toNat := by omega
      have hp2 : byteAt (transformed (evalBody (bodies.getD op.toNat []) (byteAt st.step3 pos2))
          pos1.toNat i.toNat st.step3) pos2 = byteAt st.step3 pos2 := by
        rw [byteAt, get_transformed, if_neg (by dsimp only; omega), byteAt]
      have hat : byteAt (transformed (evalBody (bodies.getD op.toNat []) (byteAt st.step3 pos2))
          pos1.toNat i.toNat st.step3) i = byteAt st.step3 i := by
        rw [byteAt, get_transformed, if_neg (by dsimp only; omega), byteAt]
      rw [List.range_succ, List.foldl_append, ih (by omega), List.foldl_cons, List.foldl_nil, hset,
        turn, if_neg h0, if_neg h253, ← hi]
      dsimp only
      rw [foldl_run hne, hp2, hat, setByte_transformed _ (by omega), ← Nat.add_assoc, ← hi]

end Effect

end DirtybirdMiner.Astro.Ops
