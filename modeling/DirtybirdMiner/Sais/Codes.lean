import DirtybirdMiner.Sais.InduceSubS
import Mathlib.Data.Nat.Digits.Defs

/-!
The pass `length`.  The sorted LMS positions stand at the high end of `sa`; no
two LMS positions are adjacent, so the low half has room for one entry for
each.  The entry tells the length of the LMS-substring, or in the byte families
the whole of a short one.
-/

namespace DirtybirdMiner.Sais.Codes

open DirtybirdMiner.Lib
open DirtybirdMiner.Lib.Checked
open DirtybirdMiner.Lib.Count
open DirtybirdMiner.Lib.BucketLayout
open DirtybirdMiner.Lib.Packing
open DirtybirdMiner.Lib.SuffixOrder
open DirtybirdMiner.Lib.LmsKeys
open DirtybirdMiner.Lib.LmsLayouts
open DirtybirdMiner.Sais.Model
open DirtybirdMiner.Sais.Buckets
open DirtybirdMiner.Sais.LmsScan

section Halves

/-- Where the sorted LMS-substrings put an LMS position. -/
noncomputable def lmsPos (text : List Int) (x : Nat) : Nat :=
  topPos text.length (substringS text).pos (IsLMS text) x

theorem substringS_back {text : List Int} {x : Nat} (h : IsLMS text x) :
    (substringS text).back x :=
  ⟨h.isS, x, h, Nat.lt_succ_self x⟩

theorem spread_lms (text : List Int) :
    Spread text.length (substringS text).pos (IsLMS text) where
  lt h := by have := h.lt_length; omega
  pos_lt h := (substringS text).pos_lt (.inr (substringS_back h))
  inj h h' := (substringS text).pos_inj (.inr (substringS_back h)) (.inr (substringS_back h'))

theorem lmsPos_lt_iff {text : List Int} {x y : Nat} (hx : IsLMS text x) (hy : IsLMS text y) :
    lmsPos text x < lmsPos text y ↔ toLex (own text x) < toLex (own text y) := by
  unfold lmsPos
  rw [(spread_lms text).topPos_lt_iff hx hy, (substringS text).pos_lt_pos_iff
    (.inr (substringS_back hx)) (.inr (substringS_back hy))]
  rfl

theorem half_lt {text : List Int} {x : Nat} (h : IsLMS text x) :
    x / 2 < text.length - lmsCount text := by
  have hlen := h.lt_length
  have := two_mul_lmsCount_lt (show 0 < text.length by omega)
  omega

/-- The LMS positions in the order of their substrings at the high end, one
value for each of them in the low half, and zeros elsewhere. -/
structure Halves (text sa : Array Int) (val : Nat → Int) : Prop where
  size : sa.size = text.size
  high : ∀ x, IsLMS text.toList x → cell sa (lmsPos text.toList x) = x
  low : ∀ x, IsLMS text.toList x → cell sa (x / 2) = val x
  rest : ∀ p, p < text.size - lmsCount text.toList →
    (∀ x, IsLMS text.toList x → x / 2 ≠ p) → cell sa p = 0

variable {text sa : Array Int} {val : Nat → Int}

theorem Halves.of_scatter (h : Scatter sa text.size (lmsPos text.toList) (IsLMS text.toList)
    (fun x => (x : Int)) (· = 0)) : Halves text sa fun _ => 0 := by
  have hzero : ∀ p, p < text.size - lmsCount text.toList → cell sa p = 0 := by
    intro p hp
    refine h.rest_cell p (by omega) fun x hx heq => ?_
    have := (spread_lms text.toList).le_topPos hx
    rw [Array.length_toList] at this
    unfold lmsPos at heq
    rw [Array.length_toList] at heq
    unfold lmsCount lmsRank at hp
    rw [Array.length_toList] at hp
    omega
  refine ⟨h.size, fun x hx => h.active_cell x hx, fun x hx => hzero _ ?_, fun p hp _ => hzero p hp⟩
  simpa using half_lt hx

theorem Halves.congr {val' : Nat → Int} (h : Halves text sa val)
    (hval : ∀ x, IsLMS text.toList x → val' x = val x) : Halves text sa val' :=
  ⟨h.size, h.high, fun x hx => (h.low x hx).trans (hval x hx).symm, h.rest⟩

theorem Halves.set {val' : Nat → Int} (h : Halves text sa val) {x : Nat}
    (hx : IsLMS text.toList x) {v : Int} (hself : val' x = v)
    (hval : ∀ y, IsLMS text.toList y → y ≠ x → val' y = val y) :
    Halves text (sa.setIfInBounds (x / 2) v) val' := by
  have hhalf := half_lt hx
  rw [Array.length_toList] at hhalf
  have hxsa : x / 2 < sa.size := by rw [h.size]; omega
  refine ⟨by simpa using h.size, fun y hy => ?_, fun y hy => ?_, fun p hp hnone => ?_⟩
  · rw [cell_set_ne, h.high y hy]
    have := (spread_lms text.toList).le_topPos hy
    change text.toList.length - lmsCount text.toList ≤ lmsPos text.toList y at this
    rw [Array.length_toList] at this
    omega
  · rw [cell_set _ hxsa]
    split
    · rename_i heq
      rw [isLMS_half_inj hx hy heq.symm] at hself
      exact hself.symm
    · rename_i hne
      rw [h.low y hy, hval y hy]
      rintro rfl
      exact hne rfl
  · rw [cell_set_ne _ (hnone x hx).symm]
    exact h.rest p hp hnone

end Halves

section Codes

/-- The bytes of a substring as `length` packs them, the first one last. -/
def bytesAt (text : Array Int) (x len : Nat) : List Nat :=
  (List.range len).map fun k => packByte (cell text (x + k))

theorem bytesAt_succ (text : Array Int) (x len : Nat) :
    bytesAt text x (len + 1) = packByte (cell text x) :: bytesAt text (x + 1) len := by
  unfold bytesAt
  rw [List.range_succ_eq_map, List.map_cons, List.map_map, Nat.add_zero]
  congr 1
  refine List.map_congr_left fun k _ => ?_
  rw [Function.comp_apply, Nat.add_assoc, Nat.add_comm 1 k]

def packed (F : Family) (text : Array Int) (x len : Nat) : Nat :=
  Nat.ofDigits 256 (bytesAt text x len) % 2 ^ F.bits

/-- The conditions under which a substring is packed. -/
def Packs (F : Family) (text : Array Int) (x len : Nat) : Prop :=
  F.byteText = true ∧ len ≤ F.bits / 8 ∧ text.size ≤ 2 ^ F.bits - 1 - packed F text x len

open Classical in
/-- The entry for an LMS-substring, read as an unsigned number. -/
noncomputable def rawCode (F : Family) (text : Array Int) (x : Nat) : Nat :=
  if (own text.toList x).2 < text.size then
    if Packs F text x (own text.toList x).1.length then
      2 ^ F.bits - 1 - packed F text x (own text.toList x).1.length
    else (own text.toList x).1.length
  else 0

noncomputable def lmsCode (F : Family) (text : Array Int) (x : Nat) : Int :=
  F.cast (rawCode F text x)

variable {F : Family} {text : Array Int} {textMax x y : Nat}

theorem packed_lt : packed F text x y < 2 ^ F.bits := Nat.mod_lt _ (by positivity)

theorem rawCode_final (h : ¬(own text.toList x).2 < text.size) : rawCode F text x = 0 := by
  rw [rawCode, if_neg h]

theorem rawCode_packs (h : (own text.toList x).2 < text.size)
    (hp : Packs F text x (own text.toList x).1.length) :
    rawCode F text x = 2 ^ F.bits - 1 - packed F text x (own text.toList x).1.length := by
  rw [rawCode, if_pos h, if_pos hp]

theorem rawCode_plain (h : (own text.toList x).2 < text.size)
    (hp : ¬Packs F text x (own text.toList x).1.length) :
    rawCode F text x = (own text.toList x).1.length := by
  rw [rawCode, if_pos h, if_neg hp]

theorem lms_lt_size (h : IsLMS text.toList x) : x + 1 < text.size := by
  simpa using h.lt_length

/-- The end and the length of a substring that is not the last one. -/
theorem own_bounds (h : IsLMS text.toList x) (hend : (own text.toList x).2 < text.size) :
    x + (own text.toList x).1.length = (own text.toList x).2 + 1 ∧ x < (own text.toList x).2 ∧
      IsLMS text.toList (own text.toList x).2 := by
  have hx := lms_lt_size h
  have hx' : x < text.toList.length := by rw [Array.length_toList]; omega
  have hend' : (own text.toList x).2 < text.toList.length := by rwa [Array.length_toList]
  exact ⟨own_length hx' hend', lt_own_snd hx', isLMS_own hx' hend'⟩

theorem size_lt_pow (h : Input F text textMax) : text.size < 2 ^ F.bits := by
  have hsize := h.size_lt
  have hpow := two_pow_bits h.bits_pos
  have hpos : (0 : Int) < 2 ^ (F.bits - 1) := by positivity
  omega

theorem rawCode_lt (h : Input F text textMax) (hx : IsLMS text.toList x) :
    rawCode F text x < 2 ^ F.bits := by
  have hsize := size_lt_pow h
  by_cases hend : (own text.toList x).2 < text.size
  · by_cases hp : Packs F text x (own text.toList x).1.length
    · rw [rawCode_packs hend hp]
      omega
    · have := own_bounds hx hend
      rw [rawCode_plain hend hp]
      omega
  · rw [rawCode_final hend]
    omega

theorem unsigned_cast {F : Family} {v : Nat} (hv : v < 2 ^ F.bits) :
    F.unsigned (F.cast (v : Int)) = v := by
  unfold Family.unsigned Family.cast
  rw [show ((2 : Int) ^ F.bits) = ((2 ^ F.bits : Nat) : Int) by push_cast; rfl,
    Int.bmod_emod, ← Int.natCast_emod, Int.toNat_natCast, Nat.mod_eq_of_lt hv]

theorem unsigned_lmsCode (h : Input F text textMax) (hx : IsLMS text.toList x) :
    F.unsigned (lmsCode F text x) = rawCode F text x :=
  unsigned_cast (rawCode_lt h hx)

theorem lmsCode_eq_iff (h : Input F text textMax) (hx : IsLMS text.toList x)
    (hy : IsLMS text.toList y) :
    lmsCode F text x = lmsCode F text y ↔ rawCode F text x = rawCode F text y := by
  constructor
  · intro heq
    rw [← unsigned_lmsCode h hx, ← unsigned_lmsCode h hy, heq]
  · intro heq
    rw [lmsCode, lmsCode, heq]

/-- A plain entry is smaller than the text, a packed one is not. -/
theorem rawCode_lt_size_iff (hx : IsLMS text.toList x)
    (hend : (own text.toList x).2 < text.size) :
    rawCode F text x < text.size ↔ ¬Packs F text x (own text.toList x).1.length := by
  by_cases hp : Packs F text x (own text.toList x).1.length
  · rw [rawCode_packs hend hp]
    have := hp.2.2
    exact iff_of_false (by omega) (not_not.mpr hp)
  · have hbounds := own_bounds hx hend
    have hx0 := hx.1
    rw [rawCode_plain hend hp]
    exact iff_of_true (by omega) hp

theorem rawCode_pos (hx : IsLMS text.toList x) (hend : (own text.toList x).2 < text.size) :
    0 < rawCode F text x := by
  have hbounds := own_bounds hx hend
  by_cases hp : Packs F text x (own text.toList x).1.length
  · rw [rawCode_packs hend hp]
    have := hp.2.2
    omega
  · rw [rawCode_plain hend hp]
    omega

theorem packByte_lt (c : Int) : packByte c < 256 := by
  unfold packByte
  omega

theorem packByte_inj {c d : Int} (hc : 0 ≤ c) (hc' : c < 256) (hd : 0 ≤ d) (hd' : d < 256)
    (h : packByte c = packByte d) : c = d := by
  unfold packByte at h
  omega

/-- Digits whose leading one is not zero are determined by their number. -/
theorem bytesAt_digits (h : Input F text textMax) (hb : F.byteText = true)
    (hx : IsLMS text.toList x) (hend : (own text.toList x).2 < text.size) :
    Nat.digits 256 (Nat.ofDigits 256 (bytesAt text x (own text.toList x).1.length)) =
      bytesAt text x (own text.toList x).1.length := by
  obtain ⟨hlen, hlt, hlms⟩ := own_bounds hx hend
  refine Nat.digits_ofDigits 256 (by omega) _ (fun d hd => ?_) fun hne => ?_
  · obtain ⟨k, -, rfl⟩ := List.mem_map.mp hd
    exact packByte_lt _
  · -- The last character of the substring is smaller than the one before it.
    obtain ⟨e, he⟩ : ∃ e, (own text.toList x).2 = e + 1 := ⟨(own text.toList x).2 - 1, by omega⟩
    have hch := IsLMS.ch_lt (he ▸ hlms)
    rw [ch_toList, ch_toList] at hch
    have hbyte := h.ch_lt e (by omega)
    have hnonneg := h.ch_nonneg (e + 1) (by omega)
    rw [h.byte hb] at hbyte
    have hlast : (bytesAt text x (own text.toList x).1.length).getLast hne =
        packByte (cell text (e + 1)) := by
      rw [List.getLast_eq_getElem]
      simp only [bytesAt, List.getElem_map, List.getElem_range, List.length_map,
        List.length_range]
      congr 2
      omega
    rw [hlast]
    unfold packByte
    push_cast at hbyte
    omega

theorem packed_eq (hp : Packs F text x (own text.toList x).1.length) :
    packed F text x (own text.toList x).1.length =
      Nat.ofDigits 256 (bytesAt text x (own text.toList x).1.length) := by
  refine Nat.mod_eq_of_lt ?_
  have hlt : Nat.ofDigits 256 (bytesAt text x (own text.toList x).1.length) <
      256 ^ (bytesAt text x (own text.toList x).1.length).length :=
    Nat.ofDigits_lt_base_pow_length (by omega) fun d hd => by
      obtain ⟨k, -, rfl⟩ := List.mem_map.mp hd
      exact packByte_lt _
  have hlen : (bytesAt text x (own text.toList x).1.length).length =
      (own text.toList x).1.length := by simp [bytesAt]
  rw [hlen] at hlt
  calc
    _ < 256 ^ (own text.toList x).1.length := hlt
    _ = 2 ^ (8 * (own text.toList x).1.length) := by rw [Nat.pow_mul]
    _ ≤ 2 ^ F.bits := Nat.pow_le_pow_right (by omega) (by have := hp.2.1; omega)

/-- Equal packed bytes are equal substrings. -/
theorem chars_of_packed (h : Input F text textMax) (hx : IsLMS text.toList x)
    (hy : IsLMS text.toList y) (hxe : (own text.toList x).2 < text.size)
    (hye : (own text.toList y).2 < text.size)
    (hxp : Packs F text x (own text.toList x).1.length)
    (hyp : Packs F text y (own text.toList y).1.length)
    (heq : packed F text x (own text.toList x).1.length =
      packed F text y (own text.toList y).1.length) :
    (own text.toList x).1.length = (own text.toList y).1.length ∧
      ∀ k, k < (own text.toList x).1.length → cell text (x + k) = cell text (y + k) := by
  have hbytes : bytesAt text x (own text.toList x).1.length =
      bytesAt text y (own text.toList y).1.length := by
    rw [← bytesAt_digits h hxp.1 hx hxe, ← bytesAt_digits h hyp.1 hy hye,
      ← packed_eq hxp, ← packed_eq hyp, heq]
  have hlen : (own text.toList x).1.length = (own text.toList y).1.length := by
    have := congrArg List.length hbytes
    simpa [bytesAt] using this
  refine ⟨hlen, fun k hk => ?_⟩
  have hxl := own_bounds hx hxe
  have hyl := own_bounds hy hye
  have hget : (bytesAt text x (own text.toList x).1.length)[k]? =
      (bytesAt text y (own text.toList y).1.length)[k]? := by rw [hbytes]
  unfold bytesAt at hget
  rw [← hlen, List.getElem?_map, List.getElem?_map, List.getElem?_range hk] at hget
  have hb := h.byte hxp.1
  have hbound : ∀ z, z < text.size → cell text z < 256 := fun z hz => by
    have := h.ch_lt z hz
    rw [hb] at this
    exact_mod_cast this
  exact packByte_inj (h.ch_nonneg _ (by omega)) (hbound _ (by omega)) (h.ch_nonneg _ (by omega))
    (hbound _ (by omega)) (Option.some.inj hget)

/-- Only one LMS-substring runs to the end of the text. -/
theorem final_unique (hx : IsLMS text.toList x) (hy : IsLMS text.toList y)
    (hxe : ¬(own text.toList x).2 < text.size) (hye : ¬(own text.toList y).2 < text.size) :
    x = y := by
  have hbetween : ∀ {x y}, IsLMS text.toList x → IsLMS text.toList y →
      ¬(own text.toList x).2 < text.size → ¬x < y := by
    intro x y hx hy hxe hlt
    have hxn := lms_lt_size hx
    have hyn := lms_lt_size hy
    have hspec := cont_snd_spec (show x + 1 ≤ text.toList.length by rw [Array.length_toList]; omega)
    refine hspec.2 y hlt ?_ hy
    change y < (own text.toList x).2
    omega
  have := hbetween hx hy hxe
  have := hbetween hy hx hye
  omega

/-- The entries tell the LMS-substrings apart, with the texts compared where
the entries are lengths. -/
theorem own_fst_eq_iff_rawCode (h : Input F text textMax) (hx : IsLMS text.toList x)
    (hy : IsLMS text.toList y) (hne : x ≠ y) :
    (own text.toList x).1 = (own text.toList y).1 ↔
      rawCode F text x = rawCode F text y ∧ (rawCode F text x < text.size →
        ∀ k, k < rawCode F text x → cell text (x + k) = cell text (y + k)) := by
  have hxn := lms_lt_size hx
  have hyn := lms_lt_size hy
  have hx' : x < text.toList.length := by rw [Array.length_toList]; omega
  have hy' : y < text.toList.length := by rw [Array.length_toList]; omega
  have hiff : (own text.toList x).2 < text.size → (own text.toList y).2 < text.size →
      ((own text.toList x).1 = (own text.toList y).1 ↔
        (own text.toList x).1.length = (own text.toList y).1.length ∧
          ∀ k, k < (own text.toList x).1.length → cell text (x + k) = cell text (y + k)) := by
    intro hxe hye
    rw [own_fst_eq_iff hx' hy' (by simpa using hxe) (by simpa using hye)]
    simp only [ch_toList]
  constructor
  · intro heq
    obtain ⟨hxe, hye, -⟩ := drop_lt_iff_of_own_eq hx' hy' hne heq
    rw [Array.length_toList] at hxe hye
    obtain ⟨hlen, hch⟩ := (hiff hxe hye).mp heq
    have hbytes : packed F text x (own text.toList x).1.length =
        packed F text y (own text.toList y).1.length := by
      unfold packed bytesAt
      rw [← hlen]
      congr 2
      refine List.map_congr_left fun k hk => ?_
      rw [hch k (List.mem_range.mp hk)]
    have hpacks : Packs F text x (own text.toList x).1.length ↔
        Packs F text y (own text.toList y).1.length := by
      unfold Packs
      rw [hbytes, hlen]
    by_cases hp : Packs F text x (own text.toList x).1.length
    · refine ⟨by rw [rawCode_packs hxe hp, rawCode_packs hye (hpacks.mp hp), hbytes], fun hlt => ?_⟩
      exact absurd hp ((rawCode_lt_size_iff hx hxe).mp hlt)
    · rw [rawCode_plain hxe hp, rawCode_plain hye (fun hy => hp (hpacks.mpr hy))]
      exact ⟨hlen, fun _ => hch⟩
  · rintro ⟨heq, hch⟩
    by_cases hxe : (own text.toList x).2 < text.size
    · have hpos : 0 < rawCode F text x := rawCode_pos hx hxe
      have hye : (own text.toList y).2 < text.size := by
        by_contra hye
        rw [rawCode_final hye] at heq
        omega
      have hpacks : Packs F text x (own text.toList x).1.length ↔
          Packs F text y (own text.toList y).1.length := by
        rw [← not_iff_not, ← rawCode_lt_size_iff hx hxe, ← rawCode_lt_size_iff hy hye, heq]
      refine (hiff hxe hye).mpr ?_
      by_cases hp : Packs F text x (own text.toList x).1.length
      · refine chars_of_packed h hx hy hxe hye hp (hpacks.mp hp) ?_
        rw [rawCode_packs hxe hp, rawCode_packs hye (hpacks.mp hp)] at heq
        have hxlt : packed F text x (own text.toList x).1.length < 2 ^ F.bits := packed_lt
        have hylt : packed F text y (own text.toList y).1.length < 2 ^ F.bits := packed_lt
        omega
      · have hlt := (rawCode_lt_size_iff (F := F) hx hxe).mpr hp
        rw [rawCode_plain hxe hp] at heq hch hlt
        rw [rawCode_plain hye fun hy => hp (hpacks.mpr hy)] at heq
        exact ⟨heq, hch hlt⟩
    · refine absurd (final_unique hx hy hxe fun hye => ?_) hne
      have hpos : 0 < rawCode F text y := rawCode_pos hy hye
      rw [← heq, rawCode_final hxe] at hpos
      omega

/-- No entry is the `-1` that stands for "none yet". -/
theorem lmsCode_ne (h : Input F text textMax) (hx : IsLMS text.toList x) :
    lmsCode F text x ≠ -1 := by
  intro heq
  have hraw := unsigned_lmsCode h hx
  have hsize := size_lt_pow h
  have hxn := lms_lt_size hx
  rw [heq] at hraw
  have hmod : (-1 : Int) % 2 ^ F.bits = 2 ^ F.bits - 1 := by
    have hpow : (1 : Int) < 2 ^ F.bits := by
      have : (1 : Nat) < 2 ^ F.bits := by omega
      exact_mod_cast this
    rw [show (-1 : Int) = (2 ^ F.bits - 1) + 2 ^ F.bits * (-1) by ring, Int.add_mul_emod_self_left]
    exact Int.emod_eq_of_lt (by omega) (by omega)
  have hall : rawCode F text x = 2 ^ F.bits - 1 := by
    rw [← hraw, Family.unsigned, hmod]
    have : ((2 ^ F.bits - 1 : Int)) = ((2 ^ F.bits - 1 : Nat) : Int) := by
      push_cast [Nat.one_le_two_pow]
      rfl
    rw [this, Int.toNat_natCast]
  by_cases hend : (own text.toList x).2 < text.size
  · by_cases hp : Packs F text x (own text.toList x).1.length
    · rw [rawCode_packs hend hp] at hall
      have hlt : packed F text x (own text.toList x).1.length < 2 ^ F.bits := packed_lt
      have hdigits := bytesAt_digits h hp.1 hx hend
      rw [← packed_eq hp, show packed F text x (own text.toList x).1.length = 0 by omega,
        Nat.digits_zero] at hdigits
      have hlen := congrArg List.length hdigits
      have hbounds := own_bounds hx hend
      simp only [bytesAt, List.length_nil, List.length_map, List.length_range] at hlen
      omega
    · have hbounds := own_bounds hx hend
      have hx0 := hx.1
      rw [rawCode_plain hend hp] at hall
      omega
  · rw [rawCode_final hend] at hall
    omega

end Codes

section Length

variable {F : Family} {text : Array Int} {textMax : Nat}

/-- The state of `length` when the positions after `i` have been scanned. -/
structure Measuring (F : Family) (text : Array Int) (i : Nat) (st : LengthState) : Prop where
  sa : Halves text st.sa fun x => if i < x then lmsCode F text x else 0
  stop : st.stop =
    if (own text.toList i).2 < text.size then (own text.toList i).2 + 1 else 0
  cx : F.byteText = true → (own text.toList i).2 < text.size →
    st.cx % 2 ^ F.bits = packed F text (i + 1) ((own text.toList i).2 - i)

theorem lengthVisit_sa (c : Int) (st : LengthState) : (lengthVisit F c st).sa = st.sa := by
  unfold lengthVisit
  split <;> rfl

theorem lengthVisit_stop (c : Int) (st : LengthState) :
    (lengthVisit F c st).stop = st.stop := by
  unfold lengthVisit
  split <;> rfl

/-- Visiting a position packs its byte. -/
theorem Measuring.visit_cx {i : Nat} {st : LengthState} (hst : Measuring F text (i + 1) st)
    (hi : i + 1 < text.size) (hb : F.byteText = true)
    (hend : (own text.toList (i + 1)).2 < text.size) :
    (lengthVisit F (cell text (i + 1)) st).cx =
      packed F text (i + 1) ((own text.toList (i + 1)).2 - i) := by
  have hlt : i + 1 < (own text.toList (i + 1)).2 := lt_own_snd (by simpa using hi)
  have hcx := hst.cx hb hend
  obtain ⟨len, hlen⟩ : ∃ len, (own text.toList (i + 1)).2 - i = len + 1 :=
    ⟨(own text.toList (i + 1)).2 - i - 1, by omega⟩
  rw [show (own text.toList (i + 1)).2 - (i + 1) = len by omega] at hcx
  rw [lengthVisit, if_pos hb, hlen]
  simp only [packed] at hcx ⊢
  rw [bytesAt_succ, Nat.ofDigits_cons, Nat.add_comm, Nat.mul_comm, Nat.add_mod, Nat.mul_mod, hcx,
    ← Nat.mul_mod, ← Nat.add_mod]

theorem Measuring.skip {i : Nat} {st : LengthState} (hst : Measuring F text (i + 1) st)
    (hi : i < text.size) (hl : ¬IsLMS text.toList (i + 1)) :
    Measuring F text i (lengthVisit F (cell text (i + 1)) st) := by
  have hown := own_snd_of_not_isLMS hl
  refine ⟨?_, ?_, fun hb hend => ?_⟩
  · rw [lengthVisit_sa]
    refine hst.sa.congr fun x hx => ?_
    have hne : x ≠ i + 1 := by
      rintro rfl
      exact hl hx
    by_cases hlt : i < x
    · rw [if_pos hlt, if_pos (by omega)]
    · rw [if_neg hlt, if_neg (by omega)]
  · rw [lengthVisit_stop, hst.stop, hown]
  · rw [hown] at hend ⊢
    have hi1 : i + 1 < text.size := by
      by_contra hge
      rw [own, cont_of_length_le (by rw [Array.length_toList]; omega)] at hend
      rw [Array.length_toList] at hend
      exact lt_irrefl _ hend
    rw [hst.visit_cx hi1 hb hend]
    exact Nat.mod_eq_of_lt packed_lt

/-- The code that `lengthFound` stores. -/
theorem Measuring.code_eq (h : Input F text textMax) {i : Nat} {st : LengthState}
    (hst : Measuring F text (i + 1) st) (hl : IsLMS text.toList (i + 1)) :
    (if (lengthVisit F (cell text (i + 1)) st).stop = 0 then 0
      else if F.byteText = true ∧
          F.cast (((lengthVisit F (cell text (i + 1)) st).stop - (i + 1) : Nat) : Int) ≤
            F.bits / 8 ∧
          2 ^ F.bits - 1 - (lengthVisit F (cell text (i + 1)) st).cx ≥ text.size % 2 ^ F.bits then
        F.cast ((2 ^ F.bits - 1 - (lengthVisit F (cell text (i + 1)) st).cx : Nat) : Int)
      else F.cast (((lengthVisit F (cell text (i + 1)) st).stop - (i + 1) : Nat) : Int)) =
      lmsCode F text (i + 1) := by
  have hi := lms_lt_size hl
  have hsize := size_lt_pow h
  rw [lengthVisit_stop, hst.stop, lmsCode]
  by_cases hend : (own text.toList (i + 1)).2 < text.size
  · obtain ⟨hlen, hlt, -⟩ := own_bounds hl hend
    rw [if_pos hend, if_neg (by omega),
      show (own text.toList (i + 1)).2 + 1 - (i + 1) = (own text.toList (i + 1)).1.length by omega,
      h.cast_eq (by omega) (by omega), Nat.mod_eq_of_lt hsize]
    have hcx : F.byteText = true → (lengthVisit F (cell text (i + 1)) st).cx =
        packed F text (i + 1) (own text.toList (i + 1)).1.length := by
      intro hb
      rw [hst.visit_cx (by omega) hb hend,
        show (own text.toList (i + 1)).2 - i = (own text.toList (i + 1)).1.length by omega]
    by_cases hp : Packs F text (i + 1) (own text.toList (i + 1)).1.length
    · have hlen8 := hp.2.1
      rw [hcx hp.1, if_pos ⟨hp.1, by omega, hp.2.2⟩, rawCode_packs hend hp]
    · rw [if_neg, rawCode_plain hend hp, h.cast_eq (by omega) (by omega)]
      rintro ⟨hb, hle, hge⟩
      rw [hcx hb] at hge
      exact hp ⟨hb, by omega, hge⟩
  · rw [if_neg hend, if_pos rfl, rawCode_final hend, h.cast_eq (by omega) (by omega)]
    rfl

theorem Measuring.found (h : Input F text textMax) {i : Nat} {st : LengthState}
    (hst : Measuring F text (i + 1) st) (hl : IsLMS text.toList (i + 1)) :
    Returns (lengthFound F text.size (i + 1) (cell text (i + 1))
      (lengthVisit F (cell text (i + 1)) st)) (Measuring F text i) := by
  have hi := lms_lt_size hl
  have hown := own_snd_of_isLMS hl
  have hstop : i + 1 ≤ (lengthVisit F (cell text (i + 1)) st).stop ∨
      (lengthVisit F (cell text (i + 1)) st).stop = 0 := by
    rw [lengthVisit_stop, hst.stop]
    split
    · rename_i hend
      have := (own_bounds hl hend).2.1
      omega
    · exact .inr rfl
  refine Returns.of_eq (a := ⟨st.sa.setIfInBounds ((i + 1) / 2) (lmsCode F text (i + 1)), i + 1 + 1,
    if F.byteText then packByte (cell text (i + 1))
    else (lengthVisit F (cell text (i + 1)) st).cx⟩) ?_ ⟨?_, ?_, fun hb _ => ?_⟩
  · unfold lengthFound
    rw [require_eq_some hstop]
    simp only [Option.bind_eq_bind, Option.bind_some]
    rw [hst.code_eq h hl, lengthVisit_sa, put_eq_some _ (by rw [hst.sa.size]; omega),
      Option.bind_some]
  · refine hst.sa.set hl (if_pos (by omega)) fun y _ hne => ?_
    by_cases hlt : i < y
    · rw [if_pos hlt, if_pos (by omega)]
    · rw [if_neg hlt, if_neg (by omega)]
  · rw [hown]
    exact (if_pos (show i + 1 < text.size by omega)).symm
  · simp only [hb, if_true]
    rw [hown, show i + 1 - i = 0 + 1 by omega, packed, bytesAt_succ]
    rfl

theorem length_returns (h : Input F text textMax) {sa : Array Int}
    (hsa : Halves text sa fun _ => 0) :
    Returns (length F text sa) fun sa' => Halves text sa' (lmsCode F text) := by
  unfold length
  have hend : (own text.toList text.size).2 = text.size := by
    rw [own, cont_of_length_le (by rw [Array.length_toList]; omega), Array.length_toList]
  refine Returns.bind (lmsScan_returns h (Measuring F text) ⟨sa, 0, 0⟩ ⟨?_, ?_, ?_⟩
    (fun i st hi hst hl => hst.skip hi hl) fun i st _ hst hl => hst.found h hl) ?_
  · refine hsa.congr fun x hx => if_neg ?_
    have := lms_lt_size hx
    omega
  · rw [hend, if_neg (by omega)]
  · intro _ hlt
    omega
  · intro st hst
    exact Returns.pure (hst.sa.congr fun x hx => (if_pos hx.1).symm)

end Length

end DirtybirdMiner.Sais.Codes
