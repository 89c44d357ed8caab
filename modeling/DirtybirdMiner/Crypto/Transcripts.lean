import DirtybirdMiner.Crypto.Hashing

/-!
What the prover and the verifier of transfers hash, from `crypto/src/proof.rs`.  Both write the
same bytes; the challenges depend on the points only through these.
-/

namespace DirtybirdMiner.Crypto.Transcripts

open DirtybirdMiner.Lib.Bytes
open DirtybirdMiner.Crypto.Hashing
open DirtybirdMiner.Crypto.Statements (PointCodec marshal to32Be)

/-- `to_string().as_bytes()` of an index. -/
def decimal (n : Nat) : List UInt8 := (Nat.toDigits 10 n).map fun c => UInt8.ofNat c.toNat

variable {G : Type} [PointCodec G] (E : Hashes G)

/-- `marshal_into`, for all points of a list. -/
def marshalAll (points : List G) : List UInt8 := points.flatMap fun p => (marshal p).1

/-- The challenge `v`. -/
def challengeV (statementhash : Nat) (ba bs a b : G) : Nat :=
  E.reducedHash (to32Be statementhash ++ marshalAll [ba, bs, a, b])

/-- The challenge `w`: the vectors one after the other. -/
def challengeW (v : Nat) (cln crn c0 d y0 g cX yX : List G) : Nat :=
  E.reducedHash (to32Be v ++ (marshalAll cln ++ (marshalAll crn ++ (marshalAll c0 ++
    (marshalAll d ++ (marshalAll y0 ++ (marshalAll g ++ (marshalAll cX ++ marshalAll yX))))))))

/-- The challenge `x`. -/
def challengeX (z : Nat) (t1 t2 : G) : Nat := E.reducedHash (to32Be z ++ marshalAll [t1, t2])

/-- The challenge `c`, of the first messages of the sigma protocol. -/
def challengeC (x : Nat) (aY aD aB aX aT aU : G) : Nat :=
  E.reducedHash (to32Be x ++ marshalAll [aY, aD, aB, aX, aT, aU])

/-- The challenge that is the hash of another. -/
def nextChallenge (prev : Nat) : Nat := E.reducedHash (to32Be prev)

/-- The base of the point `u`. -/
def nonceBase (roothash scid : FixedBytes 32) (scidIndex : Nat) : G :=
  E.hashToPoint (E.hashToNumber (protocolConstant ++ (roothash.1 ++ (scid.1 ++ decimal scidIndex))))

end DirtybirdMiner.Crypto.Transcripts
