import DirtybirdMiner.Bn256.Affine

/-!
The group element `G1` of `bn256/src/g1.rs` and its byte forms: both coordinates,
and the first with a flag for the second.  Elements are taken up to the choice of
projective coordinates.
-/

namespace DirtybirdMiner.Bn256.Points

open DirtybirdMiner.Lib.Bytes
open DirtybirdMiner.Bn256.Prime
open DirtybirdMiner.Bn256.Affine

inductive G1 where
  | infinity
  | affine (P : AffinePoint)
deriving DecidableEq

namespace G1

/-- Both coordinates, zeros for the point at infinity. -/
def marshal : G1 → FixedBytes 64
  | infinity => ⟨List.replicate 64 0, rfl⟩
  | affine P => ⟨beBytes 32 P.x ++ beBytes 32 P.y, by simp⟩

/-- `GfP::unmarshal`. -/
def unmarshalCoordinate (input : List UInt8) : Except String (Fin fieldPrime) :=
  if input.length < 32 then .error "bn256: not enough data"
  else
    let v := beValue (input.take 32)
    if h : v < fieldPrime then .ok ⟨v, h⟩
    else if v > fieldPrime then .error "bn256: coordinate exceeds modulus"
    else .error "bn256: coordinate equals modulus"

def unmarshal (m : List UInt8) : Except String G1 :=
  if m.length < 64 then .error "bn256: not enough data"
  else do
    let x ← unmarshalCoordinate (slice m 0 32)
    let y ← unmarshalCoordinate (slice m 32 32)
    if x.1 = 0 ∧ y.1 = 0 then .ok infinity
    else if h : y.1 * y.1 % fieldPrime = (x.1 * x.1 * x.1 + 3) % fieldPrime then
      .ok (affine ⟨x.1, y.1, x.2, y.2, h⟩)
    else .error "bn256: malformed point"

def compress (g : G1) : FixedBytes 33 :=
  ⟨g.marshal.1.take 32 ++ [rootFlag (beValue (slice g.marshal.1 32 32))], by simp [g.marshal.2]⟩

/-- The square roots of `x³ + 3`. -/
def xToY (xb : List UInt8) : Option (Nat × Nat) :=
  let xi := beValue (xb.take 32)
  let x3 := xi * xi * xi % fieldPrime
  let beta := (x3 + 3) % fieldPrime
  let y1 := modSqrt beta
  if y1 * y1 % fieldPrime ≠ beta then none
  else some (y1, if y1 = 0 then 0 else fieldPrime - y1)

def marshalXY (xb : List UInt8) (y : Nat) : Except String G1 :=
  if 256 ^ 32 ≤ y then .error "bn256: y coordinate too large"
  else unmarshal (xb.take 32 ++ beBytes 32 y)

def decompress (encoding : List UInt8) : Except String G1 :=
  if encoding.length ≠ 33 then .error "bn256: not enough data on compressed point"
  else
    match xToY (encoding.take 32) with
    | none => .error "bn256: Cannot decompress"
    | some (y1, y2) => marshalXY (encoding.take 32) (chooseRoot y1 y2 (encoding.getD 32 0))

section Compression

theorem compress_affine (P : AffinePoint) : (affine P).compress = P.compressed := by
  have hy : beValue (beBytes 32 P.y) = P.y := by
    rw [beValue_beBytes, Nat.mod_eq_of_lt (lt_of_lt_of_le P.y_lt (by decide))]
  have hslice : slice (beBytes 32 P.x ++ beBytes 32 P.y) 32 32 = beBytes 32 P.y := by
    rw [slice, List.drop_left' (beBytes_length 32 P.x)]
    exact List.take_of_length_le (by simp)
  apply Subtype.ext
  simp only [compress, marshal, AffinePoint.compressed, hslice, hy,
    List.take_left' (beBytes_length 32 P.x)]

theorem unmarshalCoordinate_beBytes {v : Nat} (h : v < fieldPrime) :
    unmarshalCoordinate (beBytes 32 v) = .ok ⟨v, h⟩ := by
  have hv : beValue ((beBytes 32 v).take 32) = v := by
    rw [List.take_of_length_le (by simp), beValue_beBytes,
      Nat.mod_eq_of_lt (lt_of_lt_of_le h (by decide))]
  unfold unmarshalCoordinate
  rw [if_neg (by simp)]
  simp only [hv, dif_pos h]

/-- The point with the first coordinate zero would need a root of three. -/
theorem AffinePoint.y_ne_zero_of_x (P : AffinePoint) : ¬(P.x = 0 ∧ P.y = 0) := by
  rintro ⟨hx, hy⟩
  have h := P.onCurve
  rw [hx, hy] at h
  exact absurd h (by decide)

theorem unmarshal_coordinates (P : AffinePoint) :
    unmarshal (beBytes 32 P.x ++ beBytes 32 P.y) = .ok (affine P) := by
  have hx : slice (beBytes 32 P.x ++ beBytes 32 P.y) 0 32 = beBytes 32 P.x := by
    rw [slice, List.drop_zero, List.take_left' (beBytes_length 32 P.x)]
  have hy : slice (beBytes 32 P.x ++ beBytes 32 P.y) 32 32 = beBytes 32 P.y := by
    rw [slice, List.drop_left' (beBytes_length 32 P.x), List.take_of_length_le (by simp)]
  unfold unmarshal
  rw [if_neg (by simp), hx, hy, unmarshalCoordinate_beBytes P.x_lt,
    unmarshalCoordinate_beBytes P.y_lt]
  simp only [bind, Except.bind, if_neg (AffinePoint.y_ne_zero_of_x P), dif_pos P.onCurve]

theorem xToY_of_point (P : AffinePoint) (xb : List UInt8) (hx : beValue (xb.take 32) = P.x) :
    ∃ y1, (y1 = P.y ∨ y1 + P.y = fieldPrime) ∧
      xToY xb = some (y1, if y1 = 0 then 0 else fieldPrime - y1) := by
  have hbeta : (P.x * P.x * P.x % fieldPrime + 3) % fieldPrime = P.y * P.y % fieldPrime := by
    rw [Nat.mod_add_mod, P.onCurve]
  have hroot := modSqrt_square P.y_lt (show P.y * P.y % fieldPrime =
    P.y * P.y % fieldPrime % fieldPrime by rw [Nat.mod_mod])
  refine ⟨_, hroot, ?_⟩
  unfold xToY
  simp only [hx, hbeta]
  rw [if_neg (not_not.mpr (square_of_root hroot))]

/-- The roots for a compressed point, and the one that its flag chooses. -/
theorem xToY_compressed (P : AffinePoint) :
    ∃ y1 y2, xToY (P.compressed.1.take 32) = some (y1, y2) ∧
      chooseRoot y1 y2 (P.compressed.1.getD 32 0) = P.y := by
  obtain ⟨y1, hroot, hxy⟩ := xToY_of_point P (P.compressed.1.take 32)
    (by rw [List.take_take]; exact beValue_compressed P)
  have hflag : P.compressed.1.getD 32 0 = rootFlag P.y := by
    simp [AffinePoint.compressed, List.getD]
  refine ⟨y1, _, hxy, ?_⟩
  have hy := P.y_lt
  rw [hflag]
  split
  · rename_i hzero
    have hy0 : P.y = 0 := by omega
    rw [hzero, hy0]
    rcases chooseRoot_root 0 0 (rootFlag 0) with h | h <;> exact h
  · exact chooseRoot_rootFlag hy hroot

/-- Decompression undoes compression. -/
theorem decompress_compressed (P : AffinePoint) :
    decompress P.compressed.1 = .ok (affine P) := by
  obtain ⟨y1, y2, hxy, hchosen⟩ := xToY_compressed P
  have htake : P.compressed.1.take 32 = beBytes 32 P.x := by
    rw [AffinePoint.compressed, List.take_left' (beBytes_length 32 P.x)]
  unfold decompress
  rw [if_neg (by simp [P.compressed.2]), hxy]
  simp only [hchosen, htake]
  unfold marshalXY
  rw [if_neg (not_le.mpr (lt_of_lt_of_le P.y_lt (by decide))),
    List.take_of_length_le (by simp), unmarshal_coordinates]

theorem unmarshalCoordinate_eq_ok {input : List UInt8} {v : Fin fieldPrime}
    (h : unmarshalCoordinate input = .ok v) : beValue (input.take 32) = v.1 := by
  unfold unmarshalCoordinate at h
  split at h
  · cases h
  · dsimp only at h
    split at h
    · cases h
      rfl
    · split at h <;> cases h

theorem unmarshal_eq_ok {m : List UInt8} {g : G1} (h : unmarshal m = .ok g) :
    (beValue ((slice m 0 32).take 32) = 0 ∧ beValue ((slice m 32 32).take 32) = 0) ∨
      ∃ P, g = affine P := by
  unfold unmarshal at h
  split at h
  · cases h
  cases hx : unmarshalCoordinate (slice m 0 32) with
  | error e =>
      rw [hx] at h
      cases h
  | ok x =>
      cases hy : unmarshalCoordinate (slice m 32 32) with
      | error e =>
          rw [hx, hy] at h
          cases h
      | ok y =>
          rw [hx, hy] at h
          simp only [bind, Except.bind] at h
          split at h
          · rename_i hzero
            rw [unmarshalCoordinate_eq_ok hx, unmarshalCoordinate_eq_ok hy]
            exact .inl hzero
          · split at h
            · cases h
              exact .inr ⟨_, rfl⟩
            · cases h

/-- A root of `x³ + 3` and the first coordinate are not both zero. -/
theorem xToY_ne_zero {xb : List UInt8} {y1 y2 : Nat} {flag : UInt8}
    (h : xToY xb = some (y1, y2)) (hx : beValue (xb.take 32) = 0) :
    chooseRoot y1 y2 flag ≠ 0 := by
  unfold xToY at h
  simp only [hx] at h
  generalize hroot : modSqrt ((0 * 0 * 0 % fieldPrime + 3) % fieldPrime) = root at h
  have hlt := modSqrt_lt ((0 * 0 * 0 % fieldPrime + 3) % fieldPrime)
  rw [hroot] at hlt
  split at h
  · cases h
  rename_i hsquare
  rw [not_not] at hsquare
  have hne : root ≠ 0 := by
    rintro rfl
    exact absurd hsquare (by decide)
  rw [if_neg hne, Option.some.injEq, Prod.mk.injEq] at h
  obtain ⟨rfl, rfl⟩ := h
  rcases chooseRoot_root root (fieldPrime - root) flag with heq | heq
  · rw [heq]
    exact hne
  · rw [heq]
    omega

/-- What is decompressed is a point other than infinity. -/
theorem decompress_eq_ok {encoding : List UInt8} {g : G1} (h : decompress encoding = .ok g) :
    encoding.length = 33 ∧ ∃ P, g = affine P := by
  unfold decompress at h
  split at h
  · cases h
  rename_i hlen
  rw [not_not] at hlen
  refine ⟨hlen, ?_⟩
  split at h
  · cases h
  rename_i y1 y2 hxy
  unfold marshalXY at h
  split at h
  · cases h
  rename_i hsize
  have hwidth : ((encoding.take 32).take 32).length = 32 := by simp [hlen]
  rcases unmarshal_eq_ok h with ⟨hx, hy⟩ | hP
  · rw [slice, List.drop_zero, List.take_left' hwidth] at hx
    rw [slice, List.drop_left' hwidth, List.take_of_length_le (by simp),
      List.take_of_length_le (by simp), beValue_beBytes,
      Nat.mod_eq_of_lt (not_le.mp hsize)] at hy
    simp only [List.take_take] at hx
    exact absurd hy (xToY_ne_zero hxy (by simpa [List.take_take] using hx))
  · exact hP

end Compression

end G1

end DirtybirdMiner.Bn256.Points
