import DirtybirdMiner.Crypto.Balances
import DirtybirdMiner.Crypto.BasePoint
import DirtybirdMiner.Lib.KeyedSearch
import Mathlib.Data.List.Sort
import Mathlib.Data.Nat.Digits.Defs

/-!
Encrypted balances as points of the curve, from `crypto/src/elgamal.rs`, and the search for the
number in a decrypted one, from `crypto/src/balance_decoder.rs`.  The base point is an argument.
A balance that is credited and added to decrypts to the sum of all that was put in, and the
search returns that sum.
-/

namespace DirtybirdMiner.Crypto.Decoder

open DirtybirdMiner.Lib.Bytes
open DirtybirdMiner.Lib.Checked
open DirtybirdMiner.Lib.KeyedSearch
open DirtybirdMiner.Bn256
open DirtybirdMiner.Bn256.Prime
open DirtybirdMiner.Bn256.Gfp
open DirtybirdMiner.Bn256.Points
open DirtybirdMiner.Bn256.Curve
open DirtybirdMiner.Bn256.Encodings
open DirtybirdMiner.Crypto.Balances
open DirtybirdMiner.Crypto.BasePoint

/-- `BigUint::to_bytes_be`: no leading zeros, but one byte for zero. -/
def toBytesBe (n : Nat) : List UInt8 :=
  if n = 0 then [0] else ((Nat.digits 256 n).map UInt8.ofNat).reverse

section Balances

abbrev Balance : Type := ElGamal (CurvePoint GfP)

variable (g : CurvePoint GfP)

/-- `ElGamal::plus`. -/
def plus (e : Balance) (value : UInt64) : Balance :=
  let gv := CurvePoint.mul gfpOps g (toBytesBe value.toNat)
  { left := CurvePoint.add gfpOps e.left gv
    right := e.right }

/-- `ElGamal::registration_zero`. -/
def registrationZero (pubkey : CurvePoint GfP) : Balance := { left := pubkey, right := g }

/-- `ElGamal::add`. -/
def add (e other : Balance) : Balance :=
  { left := CurvePoint.add gfpOps e.left other.left
    right := CurvePoint.add gfpOps e.right other.right }

/-- `ElGamal::decrypt_to_point`. -/
def decryptToPoint (e : Balance) (secret : Nat) : CurvePoint GfP :=
  let rightX := CurvePoint.mul gfpOps e.right (toBytesBe secret)
  CurvePoint.add gfpOps e.left (CurvePoint.neg gfpOps rightX)

inductive Operation where
  | plus (v : UInt64)
  | add (e : Balance)

def Operation.apply (e : Balance) : Operation → Balance
  | .plus v => Decoder.plus g e v
  | .add other => Decoder.add e other

def run (ops : List Operation) (e : Balance) : Balance := ops.foldl (Operation.apply g) e

end Balances

section Decoder

structure BalanceDecoder where
  table : List UInt64

/-- The high 40 bits. -/
def keyMask : UInt64 := 0xffffffffff000000

/-- The low 24 bits. -/
def indexMask : UInt64 := 0x00ffffff

/-- `u64::from_be_bytes(c[25..33])`. -/
def lastWord (c : List UInt8) : UInt64 := UInt64.ofNat (beValue (slice c 25 8))

/-- The entry of the table for the point `G·i`, from its compressed bytes. -/
def tableEntry (c : List UInt8) (i : Nat) : UInt64 :=
  lastWord (((c.set 32 (UInt8.ofNat (i &&& 0xff))).set 31 (UInt8.ofNat ((i >>> 8) &&& 0xff))).set
    30 (UInt8.ofNat ((i >>> 16) &&& 0xff)))

variable (g : CurvePoint GfP)

/-- The entries from `i` on, `acc` being the point `G·i`. -/
def tableFrom : Nat → Nat → CurvePoint GfP → List UInt64
  | 0, _, _ => []
  | count + 1, i, acc =>
      tableEntry (Encodings.compress acc) i :: tableFrom count (i + 1) (CurvePoint.add gfpOps acc g)

/-- `BalanceDecoder::new`. -/
def BalanceDecoder.new (tableSize : Nat) : Option BalanceDecoder := do
  require (tableSize % 256 = 0)
  some { table := (tableFrom g tableSize 0 (CurvePoint.infinity gfpOps)).mergeSort }

/-- `BalanceDecoder::g_times`. -/
def gTimes (n : UInt64) : CurvePoint GfP := CurvePoint.mul gfpOps g (beBytes 8 n.toNat)

/-- `a + b` with the overflow check. -/
def addChecked (a b : UInt64) : Option UInt64 := do
  require (a.toNat + b.toNat < 2 ^ 64)
  some (a + b)

/-- The inner loop, over the table from the index on: the balance if it is found. -/
def scan (target : List UInt8) (balance bigPart : UInt64) : List UInt64 → Option (Option UInt64)
  | [] => some none
  | entry :: rest =>
      if entry &&& keyMask = bigPart then do
        let candidate ← addChecked balance (entry &&& indexMask)
        if Encodings.marshal (gTimes g candidate) = target then some (some candidate)
        else scan target balance bigPart rest
      else some none

/-- The key that is looked up for a point, from its compressed bytes. -/
def bigPartOf (c : List UInt8) : UInt64 := lastWord (((c.set 30 0).set 31 0).set 32 0)

/-- The outer loop, with a budget of iterations. -/
def lookupLoop (table : List UInt64) (target : List UInt8) (workPerLoop : CurvePoint GfP) :
    Nat → CurvePoint GfP → UInt64 → UInt64 → Option UInt64
  | 0, _, _, _ => none
  | steps + 1, pcopy, balance, loopCounter => do
      let pcopy := if loopCounter ≠ 0 then CurvePoint.add gfpOps pcopy workPerLoop else pcopy
      let loopCounter ← addChecked loopCounter 1
      let bigPart := bigPartOf (Encodings.compress pcopy)
      let index := partitionPoint (fun e => e &&& keyMask < bigPart) table
      match ← scan g target balance bigPart (table.drop index) with
      | some candidate => some candidate
      | none => do
          let balance ← addChecked balance (UInt64.ofNat table.length)
          lookupLoop table target workPerLoop steps pcopy balance loopCounter

/-- `BalanceDecoder::lookup`, with a budget of iterations.  `none` is an overflow or a used up
budget. -/
def BalanceDecoder.lookup (d : BalanceDecoder) (p : CurvePoint GfP) (hint : UInt64)
    (steps : Nat) : Option UInt64 :=
  let target := Encodings.marshal p
  if hint ≠ 0 ∧ Encodings.marshal (gTimes g hint) = target then some hint
  else
    let n := UInt64.ofNat d.table.length
    let workPerLoop := CurvePoint.neg gfpOps (gTimes g n)
    lookupLoop g d.table target workPerLoop steps p 0 0

end Decoder

section Words

theorem keyMask_toNat (e : UInt64) : (e &&& keyMask).toNat = e.toNat / 2 ^ 24 * 2 ^ 24 := by
  have hmask : keyMask.toNat = (2 ^ 40 - 1) * 2 ^ 24 := by decide
  rw [UInt64.toNat_and, hmask]
  apply Nat.eq_of_testBit_eq
  intro i
  rw [Nat.testBit_and, Nat.testBit_mul_two_pow, Nat.testBit_mul_two_pow,
    Nat.testBit_two_pow_sub_one, Nat.testBit_div_two_pow]
  by_cases hlow : 24 ≤ i
  · rw [Nat.sub_add_cancel hlow]
    by_cases hhigh : i < 64
    · simp [hlow, show i - 24 < 40 by omega]
    · have hzero : e.toNat.testBit i = false := by
        apply Nat.testBit_lt_two_pow
        exact lt_of_lt_of_le e.toNat_lt (Nat.pow_le_pow_right (by decide) (by omega))
      simp [hzero]
  · simp [hlow]

theorem indexMask_toNat (e : UInt64) : (e &&& indexMask).toNat = e.toNat % 2 ^ 24 := by
  rw [UInt64.toNat_and]
  exact Nat.and_two_pow_sub_one_eq_mod e.toNat 24

/-- The 40 bits of a compressed point. -/
def keyPart (c : List UInt8) : Nat := beValue (slice c 25 5)

theorem lastWord_toNat {front : List UInt8} (hlen : front.length = 30) (x y z : UInt8) :
    (lastWord (front ++ [x, y, z])).toNat =
      beValue (front.drop 25) * 2 ^ 24 + beValue [x, y, z] := by
  have hslice : slice (front ++ [x, y, z]) 25 8 = front.drop 25 ++ [x, y, z] := by
    rw [slice, List.drop_append_of_le_length (by omega)]
    exact List.take_of_length_le (by simp [hlen])
  have hvalue : beValue (front.drop 25 ++ [x, y, z]) =
      beValue (front.drop 25) * 2 ^ 24 + beValue [x, y, z] := by
    have hpow : 256 ^ [x, y, z].length = 2 ^ 24 := by
      simp only [List.length_cons, List.length_nil, Nat.reduceAdd, Nat.reducePow]
    rw [beValue_append, hpow]
  have hlt : beValue (front.drop 25 ++ [x, y, z]) < 2 ^ 64 := by
    have hwidth : (front.drop 25 ++ [x, y, z]).length = 8 := by simp [hlen]
    have h := beValue_lt (front.drop 25 ++ [x, y, z])
    rw [hwidth] at h
    exact lt_of_lt_of_eq h (by decide)
  rw [lastWord, hslice, UInt64.toNat_ofNat', Nat.mod_eq_of_lt hlt, hvalue]

theorem exists_front {c : List UInt8} (hlen : c.length = 33) :
    ∃ front x y z, front.length = 30 ∧ c = front ++ [x, y, z] ∧
      beValue (front.drop 25) = keyPart c := by
  obtain ⟨x, y, z, hrest⟩ := List.length_eq_three.mp
    (show (c.drop 30).length = 3 by rw [List.length_drop, hlen])
  have hfront : (c.take 30).length = 30 := by rw [List.length_take, hlen]; rfl
  refine ⟨c.take 30, x, y, z, hfront, ?_, ?_⟩
  · rw [← hrest, List.take_append_drop]
  · rw [keyPart, slice, List.drop_take]

theorem set_last {front rest : List UInt8} (hlen : front.length = 30) (i : Nat) (v : UInt8) :
    (front ++ rest).set (30 + i) v = front ++ rest.set i v := by
  rw [List.set_append_right (h := by omega), hlen, Nat.add_sub_cancel_left]

theorem beValue_index {i : Nat} (hi : i < 2 ^ 24) :
    beValue [UInt8.ofNat ((i >>> 16) &&& 0xff), UInt8.ofNat ((i >>> 8) &&& 0xff),
      UInt8.ofNat (i &&& 0xff)] = i := by
  have hbyte : ∀ n : Nat, (UInt8.ofNat (n &&& 0xff)).toNat = n % 256 := by
    intro n
    rw [UInt8.toNat_ofNat', Nat.and_two_pow_sub_one_eq_mod n 8]
    omega
  simp only [beValue, List.reverse_cons, List.reverse_nil, List.nil_append, List.cons_append,
    leValue, hbyte, Nat.shiftRight_eq_div_pow]
  omega

theorem tableEntry_toNat {c : List UInt8} (hlen : c.length = 33) {i : Nat} (hi : i < 2 ^ 24) :
    (tableEntry c i).toNat = keyPart c * 2 ^ 24 + i := by
  obtain ⟨front, x, y, z, hfront, rfl, hkey⟩ := exists_front hlen
  rw [tableEntry, set_last hfront 2, set_last hfront 1, set_last hfront 0]
  change (lastWord (front ++ [_, _, _])).toNat = _
  rw [lastWord_toNat hfront, hkey, beValue_index hi]

theorem bigPartOf_toNat {c : List UInt8} (hlen : c.length = 33) :
    (bigPartOf c).toNat = keyPart c * 2 ^ 24 := by
  obtain ⟨front, x, y, z, hfront, rfl, hkey⟩ := exists_front hlen
  have hzero : beValue [0, 0, 0] = 0 := by decide
  rw [bigPartOf, set_last hfront 0, set_last hfront 1, set_last hfront 2]
  change (lastWord (front ++ [0, 0, 0])).toNat = _
  rw [lastWord_toNat hfront, hkey, hzero, Nat.add_zero]

end Words

section Points

theorem leValue_digits (n : Nat) : leValue ((Nat.digits 256 n).map UInt8.ofNat) = n := by
  have hrun : ∀ digits : List Nat, (∀ d ∈ digits, d < 256) →
      leValue (digits.map UInt8.ofNat) = Nat.ofDigits 256 digits := by
    intro digits
    induction digits with
    | nil =>
        intro _
        rfl
    | cons d digits ih =>
        intro hlt
        have hd : (UInt8.ofNat d).toNat = d := by
          rw [UInt8.toNat_ofNat']
          exact Nat.mod_eq_of_lt (hlt d List.mem_cons_self)
        rw [List.map_cons, leValue, hd, ih fun e he => hlt e (List.mem_cons_of_mem d he),
          Nat.ofDigits_cons]
  rw [hrun _ fun d hd => Nat.digits_lt_base (by decide) hd, Nat.ofDigits_digits]

theorem beValue_toBytesBe (n : Nat) : beValue (toBytesBe n) = n := by
  unfold toBytesBe
  split
  · rename_i hzero
    rw [hzero]
    rfl
  · rw [beValue, List.reverse_reverse, leValue_digits]

/-- The bytes of an element give it back. -/
theorem unmarshal_marshal (p : G1) : G1.unmarshal p.marshal.1 = .ok p := by
  cases p with
  | infinity => decide +kernel
  | affine P => exact G1.unmarshal_coordinates P

/-- Points with the same bytes are the same. -/
theorem marshal_injective {a b : CurvePoint GfP} {P Q : (E Fp).Point} (ha : a.Is P) (hb : b.Is Q)
    (h : Encodings.marshal a = Encodings.marshal b) : P = Q := by
  obtain ⟨p, rfl⟩ := exists_pointOf P
  obtain ⟨q, rfl⟩ := exists_pointOf Q
  rw [marshal_refines ha, marshal_refines hb] at h
  have hp := unmarshal_marshal p
  rw [h, unmarshal_marshal q] at hp
  cases hp
  rfl

/-- The bytes do not depend on the representation. -/
theorem marshal_congr {a b : CurvePoint GfP} {P : (E Fp).Point} (ha : a.Is P) (hb : b.Is P) :
    Encodings.marshal a = Encodings.marshal b := by
  obtain ⟨p, rfl⟩ := exists_pointOf P
  rw [marshal_refines ha, marshal_refines hb]

theorem compress_congr {a b : CurvePoint GfP} {P : (E Fp).Point} (ha : a.Is P) (hb : b.Is P) :
    Encodings.compress a = Encodings.compress b := by
  rw [Encodings.compress, Encodings.compress, marshal_congr ha hb]

theorem compress_length {a : CurvePoint GfP} {P : (E Fp).Point} (ha : a.Is P) :
    (Encodings.compress a).length = 33 := by
  obtain ⟨p, rfl⟩ := exists_pointOf P
  rw [compress_refines ha]
  exact p.compress.2

theorem is_add {a b : CurvePoint GfP} {P Q : (E Fp).Point} (ha : a.Is P) (hb : b.Is Q) :
    (CurvePoint.add gfpOps a b).Is (P + Q) := ha.add gfpOps_interprets field_two_ne_zero hb

theorem is_neg {a : CurvePoint GfP} {P : (E Fp).Point} (ha : a.Is P) :
    (CurvePoint.neg gfpOps a).Is (-P) := ha.neg gfpOps_interprets

theorem is_mul {a : CurvePoint GfP} {P : (E Fp).Point} (ha : a.Is P) (k : List UInt8) :
    (CurvePoint.mul gfpOps a k).Is (beValue k • P) := ha.mul gfpOps_interprets field_two_ne_zero k

theorem is_toBytesBe {a : CurvePoint GfP} {P : (E Fp).Point} (ha : a.Is P) (n : Nat) :
    (CurvePoint.mul gfpOps a (toBytesBe n)).Is (n • P) := by
  have h := is_mul ha (toBytesBe n)
  rwa [beValue_toBytesBe] at h

variable {g : CurvePoint GfP} {G : (E Fp).Point}

theorem gTimes_is (hg : g.Is G) (n : UInt64) : (gTimes g n).Is (n.toNat • G) := by
  -- the bytes stay a variable: those of a number would be computed with
  have hbytes : ∀ scalarBe, beValue scalarBe = n.toNat →
      (CurvePoint.mul gfpOps g scalarBe).Is (n.toNat • G) := by
    intro scalarBe hvalue
    rw [← hvalue]
    exact is_mul hg scalarBe
  rw [gTimes]
  apply hbytes
  rw [beValue_beBytes, Nat.mod_eq_of_lt (lt_of_lt_of_eq n.toNat_lt (by decide))]

/-- Only the balance has the bytes of its multiple of the base point. -/
theorem marshal_gTimes_iff (hg : g.Is G) (hG : G ≠ 0) {p : CurvePoint GfP} {b : UInt64}
    (hp : p.Is (b.toNat • G)) (c : UInt64) :
    Encodings.marshal (gTimes g c) = Encodings.marshal p ↔ c = b := by
  constructor
  · intro h
    have hmultiple := marshal_injective (gTimes_is hg c) hp h
    exact UInt64.toNat_inj.mp (nsmul_injective hG c.toNat_lt b.toNat_lt hmultiple)
  · rintro rfl
    exact marshal_congr (gTimes_is hg c) hp

end Points

section Homomorphy

variable {g : CurvePoint GfP} {G : (E Fp).Point} {x : Nat} {e other : Balance} {w w' : ℤ}

/-- A balance of an amount under a key. -/
def Encrypts (G : (E Fp).Point) (x : Nat) (e : Balance) (w : ℤ) : Prop :=
  ∃ r : ℤ, e.left.Is (w • G + r • x • G) ∧ e.right.Is (r • G)

/-- What an operation puts into a balance. -/
def Operation.Moves (G : (E Fp).Point) (x : Nat) : Operation → ℤ → Prop
  | .plus v, w => w = v.toNat
  | .add other, w => Encrypts G x other w

theorem registrationZero_encrypts (hg : g.Is G) {pubkey : CurvePoint GfP}
    (hkey : pubkey.Is (x • G)) : Encrypts G x (registrationZero g pubkey) 0 := by
  refine ⟨1, ?_, ?_⟩
  · rw [zero_zsmul, zero_add, one_zsmul]
    exact hkey
  · rw [one_zsmul]
    exact hg

theorem plus_encrypts (hg : g.Is G) (he : Encrypts G x e w) (v : UInt64) :
    Encrypts G x (plus g e v) (w + v.toNat) := by
  obtain ⟨r, hleft, hright⟩ := he
  refine ⟨r, ?_, hright⟩
  have hsum := is_add hleft (is_toBytesBe hg v.toNat)
  rwa [add_right_comm, ← natCast_zsmul G v.toNat, ← add_zsmul] at hsum

theorem add_encrypts (he : Encrypts G x e w) (hother : Encrypts G x other w') :
    Encrypts G x (add e other) (w + w') := by
  obtain ⟨r, hleft, hright⟩ := he
  obtain ⟨r', hleft', hright'⟩ := hother
  refine ⟨r + r', ?_, ?_⟩
  · rw [add_zsmul, add_zsmul, add_add_add_comm]
    exact is_add hleft hleft'
  · rw [add_zsmul]
    exact is_add hright hright'

theorem apply_encrypts (hg : g.Is G) (he : Encrypts G x e w) {op : Operation}
    (hop : op.Moves G x w') : Encrypts G x (op.apply g e) (w + w') := by
  cases op with
  | plus v =>
      obtain rfl : w' = v.toNat := hop
      exact plus_encrypts hg he v
  | add other => exact add_encrypts he hop

/-- After every operation the balance is that of the sum so far. -/
theorem run_encrypts (hg : g.Is G) {ops : List Operation} {amounts : List ℤ}
    (hops : List.Forall₂ (Operation.Moves G x) ops amounts) (he : Encrypts G x e w) :
    Encrypts G x (run g ops e) (w + amounts.sum) := by
  induction hops generalizing e w with
  | nil =>
      rw [List.sum_nil, add_zero]
      exact he
  | @cons op amount ops amounts hop _ ih =>
      have hrest := ih (apply_encrypts hg he hop)
      rwa [add_assoc, ← List.sum_cons] at hrest

theorem decryptToPoint_is (he : Encrypts G x e w) : (decryptToPoint e x).Is (w • G) := by
  obtain ⟨r, hleft, hright⟩ := he
  have hpoint := is_add hleft (is_neg (is_toBytesBe hright x))
  rwa [smul_comm x r G, add_neg_cancel_right] at hpoint

end Homomorphy

section Table

variable {g : CurvePoint GfP} {G : (E Fp).Point}

/-- A sorted table with the entry of each multiple of the base point below the size. -/
structure TableOf (G : (E Fp).Point) (size : Nat) (table : List UInt64) : Prop where
  sorted : table.Pairwise fun a b => a ≤ b
  length_eq : table.length = size
  sound : ∀ e ∈ table, (e &&& indexMask).toNat < size
  complete : ∀ i, i < size → ∀ a : CurvePoint GfP, a.Is (i • G) →
    tableEntry (Encodings.compress a) i ∈ table

theorem tableFrom_length (g : CurvePoint GfP) (count i : Nat) (acc : CurvePoint GfP) :
    (tableFrom g count i acc).length = count := by
  induction count generalizing i acc with
  | zero => rfl
  | succ count ih => rw [tableFrom, List.length_cons, ih]

theorem tableFrom_sound (hg : g.Is G) {count i : Nat} {acc : CurvePoint GfP}
    (hacc : acc.Is (i • G)) (hsize : i + count ≤ 2 ^ 24) :
    ∀ e ∈ tableFrom g count i acc, (e &&& indexMask).toNat < i + count := by
  induction count generalizing i acc with
  | zero =>
      intro e he
      cases he
  | succ count ih =>
      intro e he
      rcases List.mem_cons.mp he with rfl | he
      · rw [indexMask_toNat, tableEntry_toNat (compress_length hacc) (by omega)]
        omega
      · have hnext := is_add hacc hg
        rw [← succ_nsmul] at hnext
        have hrest := ih hnext (by omega) e he
        omega

theorem tableFrom_complete (hg : g.Is G) {count i : Nat} {acc : CurvePoint GfP}
    (hacc : acc.Is (i • G)) {j : Nat} (hlo : i ≤ j) (hhi : j < i + count) {a : CurvePoint GfP}
    (ha : a.Is (j • G)) : tableEntry (Encodings.compress a) j ∈ tableFrom g count i acc := by
  induction count generalizing i acc with
  | zero => omega
  | succ count ih =>
      rw [tableFrom, List.mem_cons]
      rcases Nat.eq_or_lt_of_le hlo with rfl | hlt
      · left
        rw [compress_congr ha hacc]
      · right
        have hnext := is_add hacc hg
        rw [← succ_nsmul] at hnext
        exact ih hnext hlt (by omega)

theorem new_table (hg : g.Is G) {size : Nat} (hdvd : 256 ∣ size) (hsize : size ≤ 2 ^ 24) :
    ∃ d, BalanceDecoder.new g size = some d ∧ TableOf G size d.table := by
  have hzero : (CurvePoint.infinity gfpOps).Is (0 • G) := by
    rw [zero_nsmul]
    exact CurvePoint.stands_infinity gfpOps_interprets
  refine ⟨⟨(tableFrom g size 0 (CurvePoint.infinity gfpOps)).mergeSort⟩, ?_, ?_, ?_, ?_, ?_⟩
  · rw [BalanceDecoder.new, require_eq_some (Nat.mod_eq_zero_of_dvd hdvd)]
    rfl
  · have hpairwise := @List.pairwise_mergeSort _ (fun a b : UInt64 => decide (a ≤ b))
        (by simpa using fun a b c => UInt64.le_trans) (by simpa using UInt64.le_total)
        (tableFrom g size 0 (CurvePoint.infinity gfpOps))
    simpa using hpairwise
  · rw [List.length_mergeSort, tableFrom_length]
  · intro e he
    have hlt := tableFrom_sound hg hzero (by omega) e (List.mem_mergeSort.mp he)
    rwa [Nat.zero_add] at hlt
  · intro i hi a ha
    rw [List.mem_mergeSort]
    exact tableFrom_complete hg hzero (Nat.zero_le i) (by omega) ha

end Table

section Search

variable {g : CurvePoint GfP} {G : (E Fp).Point} {p : CurvePoint GfP} {b : UInt64}

theorem addChecked_eq_some {a c : UInt64} (h : a.toNat + c.toNat < 2 ^ 64) :
    ∃ s, addChecked a c = some s ∧ s.toNat = a.toNat + c.toNat := by
  refine ⟨a + c, ?_, ?_⟩
  · rw [addChecked, require_eq_some h]
    rfl
  · rw [UInt64.toNat_add, Nat.mod_eq_of_lt h]

/-- The entries with the key are gone through until one gives the balance. -/
theorem scan_eq (hg : g.Is G) (hG : G ≠ 0) (hp : p.Is (b.toNat • G)) {balance bigPart : UInt64}
    {l : List UInt64}
    (hroom : ∀ e ∈ l, balance.toNat + (e &&& indexMask).toNat < 2 ^ 64) :
    (∃ e ∈ l.takeWhile fun e => e &&& keyMask = bigPart,
        balance.toNat + (e &&& indexMask).toNat = b.toNat) ∧
        scan g (Encodings.marshal p) balance bigPart l = some (some b) ∨
      (∀ e ∈ l.takeWhile fun e => e &&& keyMask = bigPart,
        balance.toNat + (e &&& indexMask).toNat ≠ b.toNat) ∧
        scan g (Encodings.marshal p) balance bigPart l = some none := by
  induction l with
  | nil =>
      right
      exact ⟨by simp, rfl⟩
  | cons entry rest ih =>
      obtain ⟨candidate, hcandidate, hvalue⟩ :=
        addChecked_eq_some (hroom entry List.mem_cons_self)
      have hmatch := marshal_gTimes_iff hg hG hp candidate
      rw [scan, hcandidate]
      by_cases hkey : entry &&& keyMask = bigPart
      · rw [if_pos hkey, List.takeWhile_cons_of_pos (by simpa using hkey)]
        by_cases hfound : candidate = b
        · left
          subst hfound
          refine ⟨⟨entry, List.mem_cons_self, hvalue.symm⟩, ?_⟩
          change (if _ then _ else _) = _
          rw [if_pos (hmatch.mpr rfl)]
        · have hne : balance.toNat + (entry &&& indexMask).toNat ≠ b.toNat := by
            rw [← hvalue]
            exact fun h => hfound (UInt64.toNat_inj.mp h)
          have hskip : (do
              let candidate ← some candidate
              if Encodings.marshal (gTimes g candidate) = Encodings.marshal p then
                some (some candidate)
              else scan g (Encodings.marshal p) balance bigPart rest) =
              scan g (Encodings.marshal p) balance bigPart rest := by
            change (if _ then _ else _) = _
            rw [if_neg (hmatch.not.mpr hfound)]
          rw [hskip]
          rcases ih fun e he => hroom e (List.mem_cons_of_mem entry he) with
            ⟨⟨e, he, heq⟩, hscan⟩ | ⟨hnone, hscan⟩
          · left
            exact ⟨⟨e, List.mem_cons_of_mem entry he, heq⟩, hscan⟩
          · right
            refine ⟨?_, hscan⟩
            intro e he
            rcases List.mem_cons.mp he with rfl | he
            · exact hne
            · exact hnone e he
      · rw [if_neg hkey, List.takeWhile_cons_of_neg (by simpa using hkey)]
        right
        exact ⟨by simp, rfl⟩

/-- The entries with the key, which the inner loop goes through, are all there are. -/
theorem takeWhile_table {size : Nat} {table : List UInt64} (htable : TableOf G size table)
    (bigPart : UInt64) :
    (table.drop (partitionPoint (fun e => e &&& keyMask < bigPart) table)).takeWhile
        (fun e => e &&& keyMask = bigPart) = table.filter fun e => e &&& keyMask = bigPart := by
  have hmono : table.Pairwise fun e f => (e &&& keyMask).toNat ≤ (f &&& keyMask).toNat := by
    apply htable.sorted.imp
    intro e f hle
    rw [keyMask_toNat, keyMask_toNat]
    exact Nat.mul_le_mul_right _ (Nat.div_le_div_right (UInt64.le_iff_toNat_le.mp hle))
  have h := takeWhile_drop_partitionPoint (fun e : UInt64 => (e &&& keyMask).toNat)
    bigPart.toNat hmono
  simpa only [UInt64.toNat_inj, ← UInt64.lt_iff_toNat_lt] using h

/-- One iteration: the balance if it is in reach of the table, nothing otherwise. -/
theorem scan_table (hg : g.Is G) (hG : G ≠ 0) (hp : p.Is (b.toNat • G)) {size : Nat}
    {table : List UInt64} (htable : TableOf G size table) (hsize : size ≤ 2 ^ 24)
    (hroom : b.toNat + size < 2 ^ 64) {balance : UInt64} (hle : balance.toNat ≤ b.toNat)
    {pcopy : CurvePoint GfP} (hpcopy : pcopy.Is ((b.toNat - balance.toNat) • G)) :
    scan g (Encodings.marshal p) balance (bigPartOf (Encodings.compress pcopy))
        (table.drop (partitionPoint
          (fun e => e &&& keyMask < bigPartOf (Encodings.compress pcopy)) table)) =
      some (if b.toNat < balance.toNat + size then some b else none) := by
  have hdrop : ∀ e ∈ table.drop (partitionPoint
      (fun e => e &&& keyMask < bigPartOf (Encodings.compress pcopy)) table),
      (e &&& indexMask).toNat < size := by
    intro e he
    exact htable.sound e (List.mem_of_mem_drop he)
  have hscan := @scan_eq _ _ _ _ hg hG hp balance (bigPartOf (Encodings.compress pcopy)) _
    (fun e he => lt_of_lt_of_le (Nat.add_lt_add_left (hdrop e he) _) (by omega))
  rw [takeWhile_table htable] at hscan
  rcases hscan with ⟨⟨e, he, heq⟩, hscan⟩ | ⟨hnone, hscan⟩
  · have hindex := htable.sound e (List.mem_filter.mp he).1
    rw [hscan, if_pos (by omega)]
  · rw [hscan]
    split
    · rename_i hlt
      -- the entry of the point itself is there
      exfalso
      have hindex : b.toNat - balance.toNat < 2 ^ 24 := by omega
      have hlength := compress_length hpcopy
      have hentry := tableEntry_toNat hlength hindex
      have hmem := htable.complete (b.toNat - balance.toNat) (by omega) pcopy hpcopy
      refine hnone _ (List.mem_filter.mpr ⟨hmem, ?_⟩) ?_
      · have hkey : (tableEntry (Encodings.compress pcopy) (b.toNat - balance.toNat) &&&
            keyMask).toNat = (bigPartOf (Encodings.compress pcopy)).toNat := by
          rw [keyMask_toNat, hentry, bigPartOf_toNat hlength]
          omega
        simpa using UInt64.toNat_inj.mp hkey
      · rw [indexMask_toNat, hentry]
        omega
    · rfl

theorem lookupLoop_eq (hg : g.Is G) (hG : G ≠ 0) (hp : p.Is (b.toNat • G)) {size : Nat}
    {table : List UInt64} (htable : TableOf G size table) (hpos : 0 < size)
    (hsize : size ≤ 2 ^ 24) (hroom : b.toNat + size < 2 ^ 64) {work : CurvePoint GfP}
    (hwork : work.Is (-(size • G))) {steps : Nat} {pcopy : CurvePoint GfP}
    {balance loopCounter : UInt64} (hbalance : balance.toNat = loopCounter.toNat * size)
    (hle : balance.toNat ≤ b.toNat)
    (hsteps : b.toNat < balance.toNat + steps * size)
    (hpcopy : (if loopCounter ≠ 0 then CurvePoint.add gfpOps pcopy work else pcopy).Is
      ((b.toNat - balance.toNat) • G)) :
    lookupLoop g table (Encodings.marshal p) work steps pcopy balance loopCounter = some b := by
  induction steps generalizing pcopy balance loopCounter with
  | zero => omega
  | succ steps ih =>
      have hcounter : loopCounter.toNat ≤ b.toNat := by
        calc loopCounter.toNat = loopCounter.toNat * 1 := (Nat.mul_one _).symm
          _ ≤ loopCounter.toNat * size := Nat.mul_le_mul_left _ hpos
          _ ≤ b.toNat := hbalance ▸ hle
      have hone : (1 : UInt64).toNat = 1 := rfl
      obtain ⟨counter, hnext, hvalue⟩ :=
        addChecked_eq_some (a := loopCounter) (c := 1) (by omega)
      have hscan := scan_table hg hG hp htable hsize hroom hle hpcopy
      rw [lookupLoop, hnext]
      simp only [Option.bind_eq_bind, Option.bind_some, hscan]
      rcases Nat.lt_or_ge b.toNat (balance.toNat + size) with hreach | hfar
      · rw [if_pos hreach]
      · rw [if_neg (Nat.not_lt.mpr hfar)]
        have hlength : (UInt64.ofNat table.length).toNat = size := by
          rw [htable.length_eq, UInt64.toNat_ofNat', Nat.mod_eq_of_lt (by omega)]
        obtain ⟨sum, hsum, hsumValue⟩ :=
          addChecked_eq_some (a := balance) (c := UInt64.ofNat table.length) (by omega)
        rw [hone] at hvalue
        rw [hlength] at hsumValue
        simp only [hsum, Option.bind_some]
        apply ih
        · rw [hsumValue, hbalance, hvalue]
          ring
        · omega
        · rw [hsumValue]
          rw [Nat.succ_mul] at hsteps
          omega
        · have hne : counter ≠ 0 := by
            intro hzero
            rw [hzero] at hvalue
            exact absurd hvalue (Nat.succ_ne_zero _).symm
          rw [if_pos hne]
          have hstep := is_add hpcopy hwork
          have hsplit : b.toNat - balance.toNat = (b.toNat - sum.toNat) + size := by omega
          rwa [hsplit, add_nsmul, add_neg_cancel_right] at hstep

/-- The search finds every balance, whatever the hint. -/
theorem lookup_eq (hg : g.Is G) (hG : G ≠ 0) (hp : p.Is (b.toNat • G)) {size : Nat}
    {d : BalanceDecoder} (htable : TableOf G size d.table) (hpos : 0 < size)
    (hsize : size ≤ 2 ^ 24) (hroom : b.toNat + size < 2 ^ 64) (hint : UInt64) {steps : Nat}
    (hsteps : b.toNat / size < steps) : d.lookup g p hint steps = some b := by
  unfold BalanceDecoder.lookup
  dsimp only
  split
  · rename_i hhint
    rw [(marshal_gTimes_iff hg hG hp hint).mp hhint.2]
  · have hlength : (UInt64.ofNat d.table.length).toNat = size := by
      rw [htable.length_eq, UInt64.toNat_ofNat', Nat.mod_eq_of_lt (by omega)]
    have hwork := is_neg (gTimes_is hg (UInt64.ofNat d.table.length))
    rw [hlength] at hwork
    apply lookupLoop_eq hg hG hp htable hpos hsize hroom hwork
    · rw [UInt64.toNat_zero, Nat.zero_mul]
    · rw [UInt64.toNat_zero]
      exact Nat.zero_le _
    · rw [UInt64.toNat_zero, Nat.zero_add, ← Nat.div_lt_iff_lt_mul hpos]
      exact hsteps
    · rw [if_neg (by simp), UInt64.toNat_zero, Nat.sub_zero]
      exact hp

end Search

section Statement

/-- Whatever the hash function, there is a base point, and from it on: a balance that starts at
zero and goes through any operations, credits and additions of balances under the same key,
decrypts to the sum of all amounts; and if that sum is a balance, every decoder finds it in the
decrypted point, with any hint. -/
theorem balances_never_drift (keccak256 : List UInt8 → FixedBytes 32) :
    ∃ (g : CurvePoint GfP) (G : (E Fp).Point),
      (∀ steps, fieldPrime ≤ steps → baseG keccak256 steps = some g) ∧ g.Is G ∧ G ≠ 0 ∧
      ∀ (x : Nat) (pubkey : CurvePoint GfP), pubkey.Is (x • G) →
      ∀ (ops : List Operation) (amounts : List ℤ),
        List.Forall₂ (Operation.Moves G x) ops amounts →
        let p := decryptToPoint (run g ops (registrationZero g pubkey)) x
        p.Is (amounts.sum • G) ∧
          ∀ size, 0 < size → 256 ∣ size → size ≤ 2 ^ 24 →
            ∀ b : Nat, amounts.sum = b → b + size < 2 ^ 64 →
            ∀ (hint : UInt64) (steps : Nat), b / size < steps →
              ((BalanceDecoder.new g size).bind fun d => d.lookup g p hint steps) =
                some (UInt64.ofNat b) := by
  obtain ⟨g, G, hg, hG, hfound⟩ := baseG_is keccak256
  refine ⟨g, G, hfound, hg, hG, ?_⟩
  intro x pubkey hkey ops amounts hops p
  have hrun := run_encrypts hg hops (registrationZero_encrypts hg hkey)
  rw [zero_add] at hrun
  have hp : p.Is (amounts.sum • G) := decryptToPoint_is hrun
  refine ⟨hp, ?_⟩
  intro size hpos hdvd hsize b hb hroom hint steps hsteps
  obtain ⟨d, hnew, htable⟩ := new_table hg hdvd hsize
  have hvalue : (UInt64.ofNat b).toNat = b := by
    rw [UInt64.toNat_ofNat', Nat.mod_eq_of_lt (by omega)]
  rw [hb, natCast_zsmul] at hp
  rw [hnew, Option.bind_some]
  apply lookup_eq hg hG _ htable hpos hsize
  · rw [hvalue]
    exact hroom
  · rw [hvalue]
    exact hsteps
  · rw [hvalue]
    exact hp

/-- Credits of five and of seven, and the zero balance of the account added once more: twelve is
found. -/
theorem balances_never_drift_twelve :
    ∃ (g pubkey : CurvePoint GfP) (G : (E Fp).Point), pubkey.Is (3 • G) ∧ G ≠ 0 ∧
      ((BalanceDecoder.new g 256).bind fun d => d.lookup g (decryptToPoint
        (run g [.plus 5, .add (registrationZero g pubkey), .plus 7]
          (registrationZero g pubkey)) 3) 9 1) = some 12 := by
  obtain ⟨g, G, -, hg, hG, hall⟩ := balances_never_drift fun _ => ⟨List.replicate 32 0, rfl⟩
  have hkey := is_toBytesBe hg 3
  obtain ⟨-, hlookup⟩ := hall 3 _ hkey
    [.plus 5, .add (registrationZero g (CurvePoint.mul gfpOps g (toBytesBe 3))), .plus 7]
    [5, 0, 7]
    (.cons rfl (.cons (registrationZero_encrypts hg hkey) (.cons rfl .nil)))
  exact ⟨g, _, G, hkey, hG, hlookup 256 (by decide) (by decide) (by decide) 12 (by decide)
    (by decide) 9 1 (by decide)⟩

end Statement

end DirtybirdMiner.Crypto.Decoder
