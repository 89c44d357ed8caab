import DirtybirdMiner.Bn256.Order
import DirtybirdMiner.Bn256.Points

/-!
The encodings of Jacobian points, from `cryptography/bn256/src/g1.rs` and `gfp.rs`, by way of the
words of their coordinates.  They refine the encodings of the points themselves; the compressed
form is one for one with the points other than infinity.
-/

namespace DirtybirdMiner.Bn256.Encodings

open DirtybirdMiner.Lib.Bytes
open DirtybirdMiner.Lib.Words
open DirtybirdMiner.Lib.Jacobian
open DirtybirdMiner.Bn256.Prime
open DirtybirdMiner.Bn256.Affine
open DirtybirdMiner.Bn256.Points
open DirtybirdMiner.Bn256.Gfp
open DirtybirdMiner.Bn256.Curve

section Model

/-- The big-endian bytes of a word. -/
def wordBytes (w : UInt64) : List UInt8 :=
  (List.range 8).map fun b => (w >>> UInt64.ofNat (56 - 8 * b)).toUInt8

/-- The loop over the bytes of a word, from the byte `b` on. -/
def wordLoop : Nat → UInt64 → List UInt8 → UInt64
  | _, v, [] => v
  | b, v, byte :: bytes =>
      wordLoop (b + 1) (v + (byte.toUInt64 <<< UInt64.ofNat (56 - 8 * b))) bytes

/-- The words of 32 bytes, least significant first. -/
def bytesWords (input : List UInt8) : List UInt64 :=
  (List.range 4).reverse.map fun w => wordLoop 0 0 (slice input (8 * w) 8)

/-- The comparison from the top word down. -/
def compareTop : List (UInt64 × UInt64) → Ordering
  | [] => .eq
  | (e, p) :: words => if e < p then .lt else if e > p then .gt else compareTop words

def compareWords (e p : List UInt64) : Ordering := compareTop (List.zip e p).reverse

end Model

section Words

theorem beValue_cons (byte : UInt8) (bytes : List UInt8) :
    beValue (byte :: bytes) = byte.toNat * 256 ^ bytes.length + beValue bytes := by
  have h := beValue_append [byte] bytes
  have hbyte : beValue [byte] = byte.toNat := by simp [beValue, leValue]
  rwa [List.singleton_append, hbyte] at h

theorem wordBytes_length (w : UInt64) : (wordBytes w).length = 8 := by simp [wordBytes]

theorem wordBytes_eq (w : UInt64) : wordBytes w = beBytes 8 w.toNat := by
  have hbyte : ∀ k < 64, (w >>> UInt64.ofNat k).toUInt8 = UInt8.ofNat (w.toNat / 2 ^ k) := by
    intro k hk
    apply UInt8.toNat_inj.mp
    rw [UInt64.toNat_toUInt8, UInt64.toNat_shiftRight, UInt64.toNat_ofNat',
      Nat.mod_eq_of_lt (by omega : k < 2 ^ 64), Nat.mod_eq_of_lt hk, Nat.shiftRight_eq_div_pow,
      UInt8.toNat_ofNat']
  have hlist : wordBytes w = [(w >>> UInt64.ofNat 56).toUInt8, (w >>> UInt64.ofNat 48).toUInt8,
      (w >>> UInt64.ofNat 40).toUInt8, (w >>> UInt64.ofNat 32).toUInt8,
      (w >>> UInt64.ofNat 24).toUInt8, (w >>> UInt64.ofNat 16).toUInt8,
      (w >>> UInt64.ofNat 8).toUInt8, (w >>> UInt64.ofNat 0).toUInt8] := rfl
  rw [hlist, hbyte 56 (by decide), hbyte 48 (by decide), hbyte 40 (by decide), hbyte 32 (by decide),
    hbyte 24 (by decide), hbyte 16 (by decide), hbyte 8 (by decide), hbyte 0 (by decide)]
  simp only [beBytes, leBytes, Nat.div_div_eq_div_mul, List.reverse_cons, List.reverse_nil,
    List.nil_append, List.cons_append, Nat.reduceMul, Nat.reducePow, Nat.div_one]

theorem beValue_wordBytes (w : UInt64) : beValue (wordBytes w) = w.toNat := by
  have hw := w.toNat_lt
  rw [wordBytes_eq, beValue_beBytes, Nat.mod_eq_of_lt (by omega)]

theorem beValue_words (words : List UInt64) :
    beValue (words.reverse.flatMap wordBytes) = wordsValue words := by
  induction words with
  | nil => rfl
  | cons w words ih =>
      rw [List.reverse_cons, List.flatMap_append, List.flatMap_singleton, beValue_append, ih,
        beValue_wordBytes, wordBytes_length, wordsValue]
      ring

theorem wordsBytes_length (words : List UInt64) :
    (words.reverse.flatMap wordBytes).length = 8 * words.length := by
  induction words with
  | nil => rfl
  | cons w words ih =>
      rw [List.reverse_cons, List.flatMap_append, List.flatMap_singleton, List.length_append, ih,
        wordBytes_length, List.length_cons]
      ring

theorem wordLoop_toNat {b : Nat} {v : UInt64} {bytes : List UInt8} (hlen : b + bytes.length = 8)
    (hv : v.toNat + 256 ^ bytes.length ≤ 2 ^ 64) :
    (wordLoop b v bytes).toNat = v.toNat + beValue bytes := by
  induction bytes generalizing b v with
  | nil => rfl
  | cons byte bytes ih =>
      rw [List.length_cons] at hlen hv
      have hbyte := byte.toNat_lt
      have hexp : 56 - 8 * b = 8 * bytes.length := by omega
      have hpow : 2 ^ (8 * bytes.length) = 256 ^ bytes.length := by rw [pow_mul]; norm_num
      have hroom : byte.toNat * 256 ^ bytes.length + 256 ^ bytes.length ≤ 256 ^ (bytes.length + 1) := by
        rw [pow_succ, Nat.mul_comm (256 ^ bytes.length), ← Nat.succ_mul]
        exact Nat.mul_le_mul_right _ hbyte
      have hshift : (byte.toUInt64 <<< UInt64.ofNat (56 - 8 * b)).toNat =
          byte.toNat * 256 ^ bytes.length := by
        rw [UInt64.toNat_shiftLeft, UInt8.toNat_toUInt64, UInt64.toNat_ofNat', hexp,
          Nat.mod_eq_of_lt (by omega : 8 * bytes.length < 2 ^ 64),
          Nat.mod_eq_of_lt (by omega : 8 * bytes.length < 64), Nat.shiftLeft_eq, hpow,
          Nat.mod_eq_of_lt]
        have hpos : 0 < 256 ^ bytes.length := by positivity
        omega
      have hsum : (v + (byte.toUInt64 <<< UInt64.ofNat (56 - 8 * b))).toNat =
          v.toNat + byte.toNat * 256 ^ bytes.length := by
        have hpos : 0 < 256 ^ bytes.length := by positivity
        rw [UInt64.toNat_add, hshift, Nat.mod_eq_of_lt (by omega)]
      rw [wordLoop, ih (by omega) (by rw [hsum]; omega), hsum, beValue_cons]
      omega

theorem bytesWords_length (input : List UInt8) : (bytesWords input).length = 4 := by
  simp [bytesWords]

/-- The words have the value of the bytes. -/
theorem wordsValue_bytesWords {input : List UInt8} (hlen : 32 ≤ input.length) :
    wordsValue (bytesWords input) = beValue (input.take 32) := by
  have hword : ∀ w < 4, (wordLoop 0 0 (slice input (8 * w) 8)).toNat =
      beValue (slice input (8 * w) 8) := by
    intro w hw
    have hlength := @slice_length _ input (8 * w) 8 (by omega)
    rw [wordLoop_toNat (by omega) (by rw [hlength]; decide)]
    exact Nat.zero_add _
  have hsplit : input.take 32 = slice input 0 8 ++ slice input 8 8 ++ slice input 16 8 ++
      slice input 24 8 := by
    unfold slice
    rw [List.drop_zero, ← List.take_add, ← List.take_add, ← List.take_add]
  have hwords : bytesWords input = [wordLoop 0 0 (slice input 24 8),
      wordLoop 0 0 (slice input 16 8), wordLoop 0 0 (slice input 8 8),
      wordLoop 0 0 (slice input 0 8)] := rfl
  have h8 := @slice_length _ input 8 8 (by omega)
  have h16 := @slice_length _ input 16 8 (by omega)
  have h24 := @slice_length _ input 24 8 (by omega)
  rw [hsplit, hwords, beValue_append, beValue_append, beValue_append, h8, h16, h24]
  simp only [wordsValue]
  rw [hword 0 (by decide), hword 1 (by decide), hword 2 (by decide), hword 3 (by decide)]
  ring

theorem compareTop_concat (words : List (UInt64 × UInt64)) (e p : UInt64) :
    compareTop (words ++ [(e, p)]) =
      if compareTop words = .eq then compareTop [(e, p)] else compareTop words := by
  induction words with
  | nil => rfl
  | cons w words ih =>
      obtain ⟨x, y⟩ := w
      rw [List.cons_append, compareTop, compareTop]
      split
      · rfl
      split
      · rfl
      · exact ih

theorem compareWords_eq {e p : List UInt64} (hlen : e.length = p.length) :
    compareWords e p = compare (wordsValue e) (wordsValue p) := by
  induction e generalizing p with
  | nil =>
      obtain rfl : p = [] := List.length_eq_zero_iff.mp hlen.symm
      rfl
  | cons x e ih =>
      obtain _ | ⟨y, p⟩ := p
      · cases hlen
      have hrest := ih (Nat.succ_inj.mp hlen)
      have hx := x.toNat_lt
      have hy := y.toNat_lt
      unfold compareWords at hrest ⊢
      rw [List.zip_cons_cons, List.reverse_cons, compareTop_concat, hrest, wordsValue, wordsValue]
      rcases Nat.lt_trichotomy (wordsValue e) (wordsValue p) with h | h | h
      · rw [Nat.compare_eq_lt.mpr h, if_neg (by decide), Nat.compare_eq_lt.mpr (by omega)]
      · rw [Nat.compare_eq_eq.mpr h, if_pos rfl, compareTop, h]
        split
        · rename_i hlt
          rw [UInt64.lt_iff_toNat_lt] at hlt
          rw [Nat.compare_eq_lt.mpr (by omega)]
        split
        · rename_i hgt
          rw [gt_iff_lt, UInt64.lt_iff_toNat_lt] at hgt
          rw [Nat.compare_eq_gt.mpr (by omega)]
        · rename_i hlt hgt
          rw [UInt64.lt_iff_toNat_lt] at hlt
          rw [gt_iff_lt, UInt64.lt_iff_toNat_lt] at hgt
          rw [Nat.compare_eq_eq.mpr (by omega)]
          rfl
      · rw [Nat.compare_eq_gt.mpr h, if_neg (by decide), Nat.compare_eq_gt.mpr (by omega)]

end Words

section Encodings

namespace GfP

/-- `GfP::marshal`. -/
def marshal (a : GfP) : List UInt8 := a.words.reverse.flatMap wordBytes

/-- `GfP::unmarshal`. -/
def unmarshal (input : List UInt8) : Except String GfP :=
  if input.length < 32 then .error "bn256: not enough data"
  else
    match h : compareWords (bytesWords input) p2 with
    | .lt => .ok ⟨bytesWords input, bytesWords_length input, by
        rw [compareWords_eq (bytesWords_length input), Nat.compare_eq_lt, p2_value] at h
        exact h⟩
    | .gt => .error "bn256: coordinate exceeds modulus"
    | .eq => .error "bn256: coordinate equals modulus"

end GfP

/-- `G1::marshal`. -/
def marshal (a : CurvePoint GfP) : List UInt8 :=
  let p := CurvePoint.makeAffine gfpOps a
  if p.isInfinity gfpOps then List.replicate 64 0
  else
    let x := GfP.montDecode p.x
    let y := GfP.montDecode p.y
    GfP.marshal x ++ GfP.marshal y

/-- `G1::unmarshal`. -/
def unmarshal (m : List UInt8) : Except String (CurvePoint GfP) :=
  if m.length < 64 then .error "bn256: not enough data"
  else do
    let x ← GfP.unmarshal (slice m 0 32)
    let y ← GfP.unmarshal (slice m 32 32)
    let x := GfP.montEncode x
    let y := GfP.montEncode y
    if x = GfP.zero ∧ y = GfP.zero then
      .ok ⟨x, GfP.new 1 GfP.one_small, GfP.zero, GfP.zero⟩
    else
      let p := ⟨x, y, GfP.new 1 GfP.one_small, GfP.new 1 GfP.one_small⟩
      if CurvePoint.isOnCurve gfpOps p then .ok p else .error "bn256: malformed point"

/-- `G1::compress`. -/
def compress (a : CurvePoint GfP) : List UInt8 :=
  let eb := marshal a
  eb.take 32 ++ [rootFlag (beValue (slice eb 32 32))]

def marshalXY (xb : List UInt8) (y : Nat) : Except String (CurvePoint GfP) :=
  if 256 ^ 32 ≤ y then .error "bn256: y coordinate too large"
  else unmarshal (xb.take 32 ++ beBytes 32 y)

/-- `G1::decompress`. -/
def decompress (encoding : List UInt8) : Except String (CurvePoint GfP) :=
  if encoding.length ≠ 33 then .error "bn256: not enough data on compressed point"
  else
    match G1.xToY (encoding.take 32) with
    | none => .error "bn256: Cannot decompress"
    | some (y1, y2) => marshalXY (encoding.take 32) (chooseRoot y1 y2 (encoding.getD 32 0))

end Encodings

section Refinement

theorem onCurve_cast {x y : Nat} :
    y * y % fieldPrime = (x * x * x + 3) % fieldPrime ↔ (y : Fp) ^ 2 = (x : Fp) ^ 3 + 3 := by
  rw [← ZMod.natCast_eq_natCast_iff', Nat.cast_mul, Nat.cast_add, Nat.cast_mul, Nat.cast_mul,
    Nat.cast_ofNat, pow_two, pow_three']

/-- The point of an encoding. -/
def pointOf : G1 → (E Fp).Point
  | .infinity => 0
  | .affine P => .some (P.x : Fp) (P.y : Fp) (nonsingular (onCurve_cast.mp P.onCurve))

theorem natCast_injective {m n : Nat} (hm : m < fieldPrime) (hn : n < fieldPrime)
    (h : (m : Fp) = (n : Fp)) : m = n := by
  rwa [ZMod.natCast_eq_natCast_iff', Nat.mod_eq_of_lt hm, Nat.mod_eq_of_lt hn] at h

theorem pointOf_injective {g g' : G1} (h : pointOf g = pointOf g') : g = g' := by
  cases g with
  | infinity =>
      cases g' with
      | infinity => rfl
      | affine P => cases h
  | affine P =>
      cases g' with
      | infinity => cases h
      | affine Q =>
          simp only [pointOf, WeierstrassCurve.Affine.Point.some.injEq] at h
          have hx := natCast_injective P.x_lt Q.x_lt h.1
          have hy := natCast_injective P.y_lt Q.y_lt h.2
          cases P
          cases Q
          simp_all

theorem exists_pointOf (P : (E Fp).Point) : ∃ g, pointOf g = P := by
  cases P with
  | zero => exact ⟨.infinity, rfl⟩
  | some X Y h =>
      have hX : ((X.val : Nat) : Fp) = X := ZMod.natCast_zmod_val X
      have hY : ((Y.val : Nat) : Fp) = Y := ZMod.natCast_zmod_val Y
      have hcurve := equation_iff.mp h.1
      refine ⟨.affine ⟨X.val, Y.val, ZMod.val_lt X, ZMod.val_lt Y, ?_⟩, ?_⟩
      · rw [onCurve_cast, hX, hY]
        exact hcurve
      · simp only [pointOf, hX, hY]

/-- The bytes of a field element are those of its words. -/
theorem marshal_words (a : GfP) : GfP.marshal a = beBytes 32 (wordsValue a.words) := by
  have hvalue := beValue_words a.words
  have hlength := wordsBytes_length a.words
  rw [a.length_eq] at hlength
  have hbytes := beBytes_beValue (GfP.marshal a)
  rw [GfP.marshal, hlength, hvalue] at hbytes
  exact hbytes.symm

/-- The decoded words of an element that stands for a number. -/
theorem montDecode_words {a : GfP} {n : Nat} (hn : n < fieldPrime) (h : a.toField = (n : Fp)) :
    wordsValue (GfP.montDecode a).words = n := by
  apply natCast_injective (GfP.montDecode a).reduced hn
  rw [← h, ← GfP.raw_montDecode_eq]
  rfl

theorem marshal_refines {a : CurvePoint GfP} {g : G1} (h : a.Is (pointOf g)) :
    marshal a = g.marshal.1 := by
  obtain ⟨haffine, hz⟩ := h.makeAffine gfpOps_interprets
  have hinfinity := CurvePoint.isInfinity_iff gfpOps_interprets
    (a := CurvePoint.makeAffine gfpOps a)
  rw [Represents.z_eq_zero haffine] at hinfinity
  unfold marshal
  dsimp only
  cases g with
  | infinity =>
      rw [if_pos (hinfinity.mpr rfl)]
      rfl
  | affine P =>
      have hne : ¬(CurvePoint.makeAffine gfpOps a).isInfinity gfpOps = true := by
        rw [hinfinity]
        exact WeierstrassCurve.Affine.Point.some_ne_zero _
      have hone := gfpOps_interprets.eq_one.mp (hz.resolve_right hne)
      obtain ⟨-, hx, hy⟩ := haffine
      rw [hone, one_pow, mul_one] at hx hy
      rw [if_neg hne, marshal_words, marshal_words, montDecode_words P.x_lt hx,
        montDecode_words P.y_lt hy]
      rfl

/-- The results of the source's functions against those on points. -/
def Refines (r : Except String (CurvePoint GfP)) : Except String G1 → Prop
  | .ok g => ∃ c, r = .ok c ∧ c.Is (pointOf g)
  | .error e => r = .error e

/-- A coordinate that is read. -/
theorem unmarshal_coordinate (input : List UInt8) :
    match G1.unmarshalCoordinate input with
    | .ok v => ∃ a, GfP.unmarshal input = .ok a ∧ wordsValue a.words = v.1
    | .error e => GfP.unmarshal input = .error e := by
  unfold G1.unmarshalCoordinate GfP.unmarshal
  by_cases hlen : input.length < 32
  · rw [if_pos hlen, if_pos hlen]
  · rw [if_neg hlen, if_neg hlen]
    have hvalue := wordsValue_bytesWords (Nat.not_lt.mp hlen)
    have hcompare := compareWords_eq (e := bytesWords input) (p := p2) (bytesWords_length input)
    rw [hvalue, p2_value] at hcompare
    dsimp only
    split
    · rename_i v hok
      split at hok
      · rename_i hlt
        cases hok
        rw [Nat.compare_eq_lt.mpr hlt] at hcompare
        split
        · exact ⟨_, rfl, hvalue⟩
        · simp_all
        · simp_all
      · split at hok <;> cases hok
    · rename_i e herror
      split at herror
      · cases herror
      · rename_i hnot
        split at herror
        · rename_i hgt
          rw [Nat.compare_eq_gt.mpr hgt] at hcompare
          cases herror
          split <;> simp_all
        · rename_i hngt
          rw [Nat.compare_eq_eq.mpr (by omega)] at hcompare
          cases herror
          split <;> simp_all

/-- A point with the last coordinate one is on the curve if it satisfies the equation. -/
theorem isOnCurve_affine (x y t : GfP) :
    CurvePoint.isOnCurve gfpOps ⟨x, y, GfP.one, t⟩ = true ↔
      y.toField ^ 2 = x.toField ^ 3 + 3 := by
  have hφ := gfpOps_interprets
  have haffine : CurvePoint.makeAffine gfpOps ⟨x, y, GfP.one, t⟩ = ⟨x, y, GfP.one, t⟩ := by
    unfold CurvePoint.makeAffine
    exact if_pos rfl
  have hfinite : ¬CurvePoint.isInfinity gfpOps ⟨x, y, GfP.one, t⟩ = true := by
    rw [CurvePoint.isInfinity_iff hφ, GfP.toField_one]
    exact one_ne_zero
  unfold CurvePoint.isOnCurve
  rw [haffine]
  dsimp only
  rw [if_neg hfinite, decide_eq_true_iff]
  constructor
  · intro h
    have hfield := congrArg GfP.toField h
    simp only [hφ.mul, hφ.add, hφ.three] at hfield
    linear_combination hfield
  · intro h
    apply hφ.injective
    simp only [hφ.mul, hφ.add, hφ.three]
    linear_combination h

theorem toField_montEncode_words (a : GfP) :
    (GfP.montEncode a).toField = (wordsValue a.words : Fp) := GfP.toField_montEncode a

theorem montEncode_eq_zero (a : GfP) : GfP.montEncode a = GfP.zero ↔ wordsValue a.words = 0 := by
  rw [← GfP.toField_inj, GfP.toField_zero, toField_montEncode_words]
  constructor
  · intro h
    rw [← Nat.cast_zero] at h
    exact natCast_injective a.reduced fieldPrime_prime.pos h
  · intro h
    rw [h, Nat.cast_zero]

theorem unmarshal_refines (m : List UInt8) : Refines (unmarshal m) (G1.unmarshal m) := by
  have hx := unmarshal_coordinate (slice m 0 32)
  have hy := unmarshal_coordinate (slice m 32 32)
  unfold unmarshal G1.unmarshal
  by_cases hlen : m.length < 64
  · rw [if_pos hlen, if_pos hlen]
    exact rfl
  rw [if_neg hlen, if_neg hlen]
  cases hcx : G1.unmarshalCoordinate (slice m 0 32) with
  | error e =>
      rw [hcx] at hx
      rw [show GfP.unmarshal (slice m 0 32) = .error e from hx]
      exact rfl
  | ok vx =>
      rw [hcx] at hx
      obtain ⟨ax, hax, hvx⟩ := hx
      rw [hax]
      cases hcy : G1.unmarshalCoordinate (slice m 32 32) with
      | error e =>
          rw [hcy] at hy
          rw [show GfP.unmarshal (slice m 32 32) = .error e from hy]
          exact rfl
      | ok vy =>
          rw [hcy] at hy
          obtain ⟨ay, hay, hvy⟩ := hy
          rw [hay]
          simp only [bind, Except.bind, montEncode_eq_zero, hvx, hvy]
          by_cases hzero : vx.1 = 0 ∧ vy.1 = 0
          · rw [if_pos hzero, if_pos hzero]
            exact ⟨_, rfl, GfP.toField_zero⟩
          · rw [if_neg hzero, if_neg hzero]
            have hcheck := isOnCurve_affine (GfP.montEncode ax) (GfP.montEncode ay) GfP.one
            rw [toField_montEncode_words, toField_montEncode_words, hvx, hvy, ← onCurve_cast]
              at hcheck
            by_cases hcurve : vy.1 * vy.1 % fieldPrime = (vx.1 * vx.1 * vx.1 + 3) % fieldPrime
            · rw [dif_pos hcurve]
              refine ⟨_, if_pos (hcheck.mpr hcurve), ?_, ?_, ?_⟩
              · exact fun h => one_ne_zero (GfP.toField_one.symm.trans h)
              · change (GfP.montEncode ax).toField = (vx.1 : Fp) * GfP.one.toField ^ 2
                rw [toField_montEncode_words, hvx, GfP.toField_one, one_pow, mul_one]
              · change (GfP.montEncode ay).toField = (vy.1 : Fp) * GfP.one.toField ^ 3
                rw [toField_montEncode_words, hvy, GfP.toField_one, one_pow, mul_one]
            · rw [dif_neg hcurve]
              exact if_neg fun h => hcurve (hcheck.mp h)

theorem compress_refines {a : CurvePoint GfP} {g : G1} (h : a.Is (pointOf g)) :
    compress a = g.compress.1 := by
  unfold compress G1.compress
  rw [marshal_refines h]

theorem decompress_refines (encoding : List UInt8) :
    Refines (decompress encoding) (G1.decompress encoding) := by
  unfold decompress G1.decompress
  by_cases hlen : encoding.length ≠ 33
  · rw [if_pos hlen, if_pos hlen]
    exact rfl
  rw [if_neg hlen, if_neg hlen]
  cases hxy : G1.xToY (encoding.take 32) with
  | none => exact rfl
  | some roots =>
      obtain ⟨y1, y2⟩ := roots
      dsimp only
      unfold marshalXY G1.marshalXY
      split
      · exact rfl
      · exact unmarshal_refines _

end Refinement

section Compression

/-- A point that was read from its coordinates is decompressed to itself. -/
theorem decompress_compress_of_unmarshal {P : AffinePoint} {a : CurvePoint GfP}
    (hread : unmarshal (beBytes 32 P.x ++ beBytes 32 P.y) = .ok a)
    (hpoint : a.Is (pointOf (.affine P))) : decompress (compress a) = .ok a := by
  obtain ⟨y1, y2, hxy, hchosen⟩ := G1.xToY_compressed P
  have htake : P.compressed.1.take 32 = beBytes 32 P.x := by
    rw [AffinePoint.compressed, List.take_left' (beBytes_length 32 P.x)]
  rw [compress_refines hpoint, G1.compress_affine]
  unfold decompress
  rw [if_neg (by simp [P.compressed.2]), hxy]
  simp only [hchosen, htake]
  unfold marshalXY
  rw [if_neg (not_le.mpr (lt_of_lt_of_le P.y_lt (by decide))),
    List.take_of_length_le (by simp), hread]

/-- The flag of the root that a flag chooses. -/
theorem rootFlag_chooseRoot {y1 : Nat} {flag : UInt8} (hpos : 0 < y1) (hlt : y1 < fieldPrime)
    (hflag : flag = 0 ∨ flag = 1) : rootFlag (chooseRoot y1 (fieldPrime - y1) flag) = flag := by
  have hodd : fieldPrime % 2 = 1 := by decide
  unfold chooseRoot rootFlag
  rcases hflag with rfl | rfl <;> split_ifs <;> simp_all <;> omega

/-- A first coordinate below the prime whose cube plus three is a square. -/
def Decodable (encoding : List UInt8) : Prop :=
  beValue (encoding.take 32) < fieldPrime ∧
    IsSquare ((beValue (encoding.take 32) : Fp) ^ 3 + (3 : Nat))

/-- What is computed for a first coordinate. -/
theorem xToY_eq_some {xb : List UInt8} {y1 y2 : Nat} (h : G1.xToY xb = some (y1, y2)) :
    y1 < fieldPrime ∧ (y1 : Fp) ^ 2 = (beValue (xb.take 32) : Fp) ^ 3 + 3 ∧
      y2 = if y1 = 0 then 0 else fieldPrime - y1 := by
  unfold G1.xToY at h
  dsimp only at h
  have hlt := modSqrt_lt ((beValue (xb.take 32) * beValue (xb.take 32) * beValue (xb.take 32) %
    fieldPrime + 3) % fieldPrime)
  generalize modSqrt ((beValue (xb.take 32) * beValue (xb.take 32) * beValue (xb.take 32) %
    fieldPrime + 3) % fieldPrime) = root at h hlt
  split at h
  · cases h
  rename_i hsquare
  rw [not_not, Nat.mod_add_mod, onCurve_cast] at hsquare
  rw [Option.some.injEq, Prod.mk.injEq] at h
  obtain ⟨rfl, rfl⟩ := h
  exact ⟨hlt, hsquare, rfl⟩

theorem isSquare_iff {x : Nat} :
    IsSquare ((x : Fp) ^ 3 + 3) ↔ ∃ y < fieldPrime, (y : Fp) ^ 2 = (x : Fp) ^ 3 + 3 := by
  constructor
  · rintro ⟨Y, hY⟩
    refine ⟨Y.val, ZMod.val_lt Y, ?_⟩
    rw [ZMod.natCast_zmod_val, hY, pow_two]
  · rintro ⟨y, -, hy⟩
    exact ⟨y, by rw [← hy, pow_two]⟩

/-- A coordinate that can be decoded gives the point with the root that the flag stands for. -/
theorem decompress_of_decodable {encoding : List UInt8} (hlen : encoding.length = 33)
    (h : Decodable encoding) :
    ∃ P : AffinePoint, G1.decompress encoding = .ok (.affine P) ∧
      P.x = beValue (encoding.take 32) ∧
      (encoding.getD 32 0 = 0 ∨ encoding.getD 32 0 = 1 → rootFlag P.y = encoding.getD 32 0) := by
  obtain ⟨hx, hsquare⟩ := h
  obtain ⟨y, hy, hcurve⟩ := isSquare_iff.mp hsquare
  have htake : (encoding.take 32).length = 32 := by rw [List.length_take, hlen]; rfl
  have hbytes := beBytes_beValue (encoding.take 32)
  rw [htake] at hbytes
  obtain ⟨y1, -, hxy⟩ := G1.xToY_of_point ⟨_, y, hx, hy, onCurve_cast.mpr hcurve⟩
    (encoding.take 32) (by rw [List.take_take]; rfl)
  obtain ⟨hlt, hroot, -⟩ := xToY_eq_some hxy
  rw [List.take_take, Nat.min_self] at hroot
  have hne : y1 ≠ 0 := by
    rintro rfl
    exact Order.y_ne_zero (nonsingular hroot) Nat.cast_zero
  rw [if_neg hne] at hxy
  obtain ⟨P, hPx, hPy⟩ := @exists_of_root _ _ (fieldPrime - y1) (encoding.getD 32 0) hx (by
      rcases chooseRoot_root y1 (fieldPrime - y1) (encoding.getD 32 0) with heq | heq
      · rw [heq]
        exact hlt
      · rw [heq]
        omega) (by omega) (onCurve_cast.mpr hroot)
  refine ⟨P, ?_, hPx, ?_⟩
  · unfold G1.decompress
    rw [if_neg (by rw [hlen]; decide), hxy]
    dsimp only
    unfold G1.marshalXY
    rw [← hPy, if_neg (not_le.mpr (lt_of_lt_of_le P.y_lt (by decide))), List.take_take,
      Nat.min_self, ← hbytes, ← hPx]
    exact G1.unmarshal_coordinates P
  · intro hflag
    rw [hPy]
    exact rootFlag_chooseRoot (Nat.pos_of_ne_zero hne) hlt hflag

theorem unmarshal_first_lt {m : List UInt8} {g : G1} (h : G1.unmarshal m = .ok g) :
    beValue ((slice m 0 32).take 32) < fieldPrime := by
  unfold G1.unmarshal at h
  split at h
  · cases h
  cases hx : G1.unmarshalCoordinate (slice m 0 32) with
  | error e =>
      rw [hx] at h
      cases h
  | ok x =>
      rw [G1.unmarshalCoordinate_eq_ok hx]
      exact x.2

theorem decodable_of_decompress {encoding : List UInt8} {g : G1}
    (h : G1.decompress encoding = .ok g) : Decodable encoding := by
  have hlen := (G1.decompress_eq_ok h).1
  have htake : (encoding.take 32).length = 32 := by rw [List.length_take, hlen]; rfl
  unfold G1.decompress at h
  rw [if_neg (by rw [hlen]; decide)] at h
  split at h
  · cases h
  rename_i y1 y2 hxy
  obtain ⟨hlt, hroot, -⟩ := xToY_eq_some hxy
  rw [List.take_take, Nat.min_self] at hroot
  unfold G1.marshalXY at h
  split at h
  · cases h
  have hfirst := unmarshal_first_lt h
  rw [slice, List.drop_zero, List.take_take, Nat.min_self, List.take_take, Nat.min_self,
    List.take_left' htake] at hfirst
  exact ⟨hfirst, isSquare_iff.mpr ⟨y1, hlt, hroot⟩⟩

/-- Compressed points, for every Jacobian representation: what is compressed is decompressed to
the same point, what is decompressed is compressed to the same bytes, the bytes that are accepted
are those with a coordinate that can be decoded, and infinity is not among them. -/
theorem compression_roundTrip :
    (∀ (a : CurvePoint GfP) (P : (E Fp).Point), P ≠ 0 → a.Is P →
      ∃ b, decompress (compress a) = .ok b ∧ b.Is P) ∧
    (∀ e : List UInt8, e.length = 33 →
      ((∃ a, decompress e = .ok a) ↔ Decodable e) ∧
      (e.getD 32 0 = 0 ∨ e.getD 32 0 = 1 → ∀ a, decompress e = .ok a → compress a = e)) ∧
    (∀ a : CurvePoint GfP, a.Is 0 → compress a = List.replicate 33 0) ∧
    decompress (List.replicate 33 0) = .error "bn256: Cannot decompress" := by
  refine ⟨?_, ?_, ?_, ?_⟩
  · intro a P hne ha
    obtain ⟨g, rfl⟩ := exists_pointOf P
    cases g with
    | infinity => exact absurd rfl hne
    | affine Q =>
        have hrefines := decompress_refines (compress a)
        rw [compress_refines ha, G1.compress_affine, G1.decompress_compressed] at hrefines
        rw [compress_refines ha, G1.compress_affine]
        exact hrefines
  · intro e hlen
    have hrefines := decompress_refines e
    constructor
    · constructor
      · rintro ⟨a, ha⟩
        cases hpoint : G1.decompress e with
        | error m =>
            rw [hpoint] at hrefines
            cases ha.symm.trans hrefines
        | ok g => exact decodable_of_decompress hpoint
      · intro hdecodable
        obtain ⟨P, hP, -⟩ := decompress_of_decodable hlen hdecodable
        rw [hP] at hrefines
        obtain ⟨c, hc, -⟩ := hrefines
        exact ⟨c, hc⟩
    · intro hflag a ha
      cases hpoint : G1.decompress e with
      | error m =>
          rw [hpoint] at hrefines
          cases ha.symm.trans hrefines
      | ok g =>
          obtain ⟨P, hP, hx, hroot⟩ := decompress_of_decodable hlen (decodable_of_decompress hpoint)
          rw [hP] at hrefines
          obtain ⟨c, hc, hIs⟩ := hrefines
          cases ha.symm.trans hc
          have htake : (e.take 32).length = 32 := by rw [List.length_take, hlen]; rfl
          have hbytes := beBytes_beValue (e.take 32)
          rw [htake, ← hx] at hbytes
          have hdrop : e.drop 32 = [e.getD 32 0] := by
            obtain ⟨last, hlast⟩ := List.length_eq_one_iff.mp
              (show (e.drop 32).length = 1 by rw [List.length_drop, hlen])
            rw [hlast, List.getD_eq_getElem?_getD, ← List.head?_drop, hlast]
            rfl
          rw [compress_refines hIs, G1.compress_affine]
          change beBytes 32 P.x ++ [rootFlag P.y] = e
          rw [hbytes, hroot hflag, ← hdrop, List.take_append_drop]
  · intro a ha
    rw [compress_refines (g := .infinity) ha]
    decide +kernel
  · have hnone : G1.xToY (List.replicate 32 0) = none := by decide +kernel
    have htake : (List.replicate 33 (0 : UInt8)).take 32 = List.replicate 32 0 := by
      rw [List.take_replicate]
      rfl
    unfold decompress
    rw [if_neg (by rw [List.length_replicate]; decide), htake, hnone]

/-- A generator in another representation. -/
theorem compression_roundTrip_generator :
    ∃ b, decompress (compress (CurvePoint.add gfpOps generator (CurvePoint.infinity gfpOps))) =
      .ok b ∧ b.Is basePoint := by
  have hsum := generator_is.add gfpOps_interprets field_two_ne_zero
    (CurvePoint.stands_infinity gfpOps_interprets)
  rw [add_zero] at hsum
  exact compression_roundTrip.1 _ basePoint (WeierstrassCurve.Affine.Point.some_ne_zero _) hsum

end Compression

end DirtybirdMiner.Bn256.Encodings
