import DirtybirdMiner.Lib.BucketLayout
import DirtybirdMiner.Sais.Model
import Mathlib.Tactic.Positivity
import Mathlib.Tactic.Ring

/-!
The frequency and bucket tables.  Within the bounds of `Input` the integer
operations neither wrap nor overflow, and `bucketMin` and `bucketMax` leave the
first and the one-past-last index of every bucket in the bucket table.
-/

namespace DirtybirdMiner.Sais.Buckets

open DirtybirdMiner.Lib.Checked
open DirtybirdMiner.Lib.Count
open DirtybirdMiner.Lib.BucketLayout
open DirtybirdMiner.Sais.Model

/-- The texts that the passes of a family are run on. -/
structure Input (F : Family) (text : Array Int) (textMax : Nat) : Prop where
  bits_pos : 0 < F.bits
  bits_le : F.bits ≤ 64
  size_lt : (text.size : Int) < 2 ^ (F.bits - 1)
  textMax_lt : textMax < 2 ^ 63
  byte : F.byteText = true → textMax = 256
  ch_nonneg : ∀ x, x < text.size → 0 ≤ cell text x
  ch_lt : ∀ x, x < text.size → cell text x < textMax

theorem checked_eq_some {F : Family} {x : Int} (hlo : -2 ^ (F.bits - 1) ≤ x)
    (hhi : x < 2 ^ (F.bits - 1)) : F.checked x = some x := by
  simp [Family.checked, hlo, hhi]

theorem two_pow_bits {F : Family} (hbits : 0 < F.bits) :
    ((2 ^ F.bits : Nat) : Int) = 2 * 2 ^ (F.bits - 1) := by
  obtain ⟨b, hb⟩ : ∃ b, F.bits = b + 1 := ⟨F.bits - 1, by omega⟩
  rw [hb, Nat.add_sub_cancel, Nat.pow_succ]
  push_cast
  ring

theorem cast_eq_self {F : Family} {x : Int} (hbits : 0 < F.bits)
    (hlo : -2 ^ (F.bits - 1) ≤ x) (hhi : x < 2 ^ (F.bits - 1)) : F.cast x = x := by
  have hpow := two_pow_bits hbits
  unfold Family.cast
  apply Int.bmod_eq_of_le
  · rw [hpow]
    omega
  · rw [hpow]
    omega

theorem addTotal_eq_some {F : Family} {x y : Int} (hbits : 0 < F.bits)
    (hlo : 0 ≤ x + y) (hhi : x + y < 2 ^ (F.bits - 1)) :
    F.addTotal x y = some (x + y) := by
  have hpos : (0 : Int) < 2 ^ (F.bits - 1) := by positivity
  unfold Family.addTotal
  split
  · rw [cast_eq_self hbits (by omega) hhi]
  · exact checked_eq_some (by omega) hhi

theorem usize_natCast {k : Nat} (hk : k < 2 ^ 63) : usize (k : Int) = k := by
  unfold usize
  omega

section

variable {F : Family} {text : Array Int} {textMax : Nat}

theorem Input.size_lt_two_pow (h : Input F text textMax) : text.size < 2 ^ 63 := by
  have hle : (2 : Int) ^ (F.bits - 1) ≤ 2 ^ 63 := by
    apply pow_le_pow_right₀ (by norm_num)
    have := h.bits_le
    omega
  have := h.size_lt
  omega

theorem Input.cast_eq (h : Input F text textMax) {x : Int} (hlo : -(text.size : Int) ≤ x)
    (hhi : x ≤ text.size) : F.cast x = x :=
  cast_eq_self h.bits_pos (by have := h.size_lt; omega) (by have := h.size_lt; omega)

theorem Input.checked_eq (h : Input F text textMax) {x : Int} (hlo : -(text.size : Int) ≤ x)
    (hhi : x ≤ text.size) : F.checked x = some x :=
  checked_eq_some (by have := h.size_lt; omega) (by have := h.size_lt; omega)

theorem Input.tableLen_eq (h : Input F text textMax) : F.tableLen textMax = textMax := by
  unfold Family.tableLen
  split
  · rename_i hb
    exact (h.byte hb).symm
  · rfl

/-- The character at a position, as the index the tables use. -/
def code (text : Array Int) (x : Nat) : Nat := (cell text x).toNat

theorem Input.cell_eq_code (h : Input F text textMax) {x : Nat} (hx : x < text.size) :
    cell text x = (code text x : Int) := by
  have := h.ch_nonneg x hx
  unfold code
  omega

theorem Input.code_lt (h : Input F text textMax) {x : Nat} (hx : x < text.size) :
    code text x < textMax := by
  have := h.ch_nonneg x hx
  have := h.ch_lt x hx
  unfold code
  omega

theorem Input.usize_cell (h : Input F text textMax) {x : Nat} (hx : x < text.size) :
    usize (cell text x) = code text x := by
  rw [h.cell_eq_code hx]
  have := h.code_lt hx
  have := h.textMax_lt
  exact usize_natCast (by omega)

end

/-- How many positions of the text hold the character `c`. -/
noncomputable def count (text : Array Int) (c : Nat) : Nat :=
  cnt text.size fun x => cell text x = c

noncomputable def minIndex (text : Array Int) (c : Nat) : Nat :=
  bucketStart text.size (cell text) (c : Int)

noncomputable def maxIndex (text : Array Int) (c : Nat) : Nat :=
  bucketEnd text.size (cell text) (c : Int)

theorem maxIndex_eq (text : Array Int) (c : Nat) :
    maxIndex text c = minIndex text c + count text c :=
  bucketEnd_eq _ _ _

theorem minIndex_succ (text : Array Int) (c : Nat) :
    minIndex text (c + 1) = maxIndex text c :=
  cnt_congr fun x _ => by push_cast; omega

theorem maxIndex_le (text : Array Int) (c : Nat) : maxIndex text c ≤ text.size :=
  bucketEnd_le _ _ _

/-- The state of `tmp` between two passes: room for the bucket table, and, when
there is room for both, a frequency table that is either marked as not yet
computed or right. -/
structure Tables (F : Family) (text : Array Int) (textMax : Nat) (haveFreq : Bool)
    (tmp : Array Int) : Prop where
  size : textMax ≤ tmp.size
  size_freq : haveFreq = true → 2 * textMax ≤ tmp.size
  byte : F.byteText = true → haveFreq = true
  freq : haveFreq = true → cell tmp 0 < 0 ∨ ∀ c, c < textMax → cell tmp c = count text c

section

variable {F : Family} {text : Array Int} {textMax : Nat} {haveFreq : Bool}

theorem Tables.boff_eq {tmp : Array Int} (ht : Tables F text textMax haveFreq tmp) :
    F.boff textMax haveFreq = if haveFreq then textMax else 0 := by
  unfold Family.boff
  cases hb : F.byteText with
  | false => simp
  | true => simp [ht.byte hb]

theorem Tables.boff_add_lt {tmp : Array Int} (ht : Tables F text textMax haveFreq tmp)
    {c : Nat} (hc : c < textMax) : F.boff textMax haveFreq + c < tmp.size := by
  have hsize := ht.size
  rw [ht.boff_eq]
  cases hf : haveFreq with
  | false => simp; omega
  | true =>
      have := ht.size_freq hf
      simp
      omega

/-- A write to the bucket table leaves the frequency table alone. -/
theorem Tables.set {tmp : Array Int} (ht : Tables F text textMax haveFreq tmp)
    (htm : 0 < textMax) {c : Nat} (v : Int) :
    Tables F text textMax haveFreq
      (tmp.setIfInBounds (F.boff textMax haveFreq + c) v) where
  size := by simpa using ht.size
  size_freq := by simpa using ht.size_freq
  byte := ht.byte
  freq := by
    intro hf
    have hboff := ht.boff_eq
    rw [if_pos hf] at hboff
    rw [cell_set_ne _ (by omega)]
    refine (ht.freq hf).imp_right fun h d hd => ?_
    rw [cell_set_ne _ (by omega)]
    exact h d hd

theorem clear_returns (off len : Nat) (tmp : Array Int) (hsize : off + len ≤ tmp.size) :
    Returns (forUp (fun i tmp => put tmp (off + i) (0 : Int)) 0 len tmp) fun tmp' =>
      tmp'.size = tmp.size ∧ (∀ i, i < len → cell tmp' (off + i) = 0) ∧
        ∀ p, p < off ∨ off + len ≤ p → cell tmp' p = cell tmp p := by
  have hloop := forUp_returns (f := fun i tmp => put tmp (off + i) (0 : Int))
    (fun i tmp' => tmp'.size = tmp.size ∧ (∀ c, c < i → cell tmp' (off + c) = 0) ∧
        ∀ p, p < off ∨ off + len ≤ p → cell tmp' p = cell tmp p) 0 len tmp
    ⟨rfl, by omega, fun _ _ => rfl⟩ ?_
  · simpa using hloop
  · rintro i tmp' - hi ⟨hs, hlow, hout⟩
    have hlt : off + i < tmp'.size := by omega
    refine Returns.of_eq (put_eq_some 0 hlt) ⟨by simpa using hs, ?_, ?_⟩
    · intro c hc
      rw [cell_set 0 hlt]
      split
      · rfl
      · exact hlow c (by omega)
    · intro p hp
      rw [cell_set_ne _ (by omega)]
      exact hout p hp

/-- Counting one character at a time. -/
theorem tally_returns (h : Input F text textMax) {tmp : Array Int} (hsize : textMax ≤ tmp.size)
    (hzero : ∀ c, c < textMax → cell tmp c = 0) :
    Returns (forEach (fun c tmp => do
      let f ← tmp[0 + usize c]?
      let f ← F.checked (f + 1)
      put tmp (0 + usize c) f) text.toList tmp) fun tmp' =>
        tmp'.size = tmp.size ∧ ∀ c, c < textMax → cell tmp' c = count text c := by
  have hloop := forEach_returns (f := fun c tmp => do
      let f ← tmp[0 + usize c]?
      let f ← F.checked (f + 1)
      put tmp (0 + usize c) f)
    (fun done _ tmp' => tmp'.size = tmp.size ∧ ∀ c, c < textMax →
      cell tmp' c = cnt done.length fun x => cell text x = c) text.toList tmp
    ⟨rfl, fun c hc => by rw [hzero c hc]; simp [cnt]⟩ ?_
  · refine hloop.mono ?_
    rintro tmp' ⟨hs, hc⟩
    exact ⟨hs, fun c hlt => by rw [hc c hlt, Array.length_toList, count]⟩
  · rintro done x rest tmp' hsplit ⟨hs, hcnt⟩
    have hlen : done.length < text.size := by
      rw [← Array.length_toList, hsplit]
      simp
    have hx : cell text done.length = x := by
      unfold cell
      rw [← Array.getElem?_toList, hsplit]
      simp
    have hcode := h.code_lt hlen
    have hle := cnt_le done.length fun y => cell text y = (code text done.length : Int)
    rw [← hx, h.usize_cell hlen, Nat.zero_add]
    have hval := hcnt _ hcode
    refine Returns.of_eq (a := tmp'.setIfInBounds (code text done.length)
      (cell tmp' (code text done.length) + 1)) ?_ ⟨by simpa using hs, ?_⟩
    · rw [getElem?_eq_cell (by omega)]
      simp only [Option.bind_eq_bind, Option.bind_some]
      rw [h.checked_eq (by omega) (by omega), Option.bind_some, put_eq_some _ (by omega)]
    · intro c hc
      rw [cell_set _ (by omega), List.length_append, List.length_singleton]
      split
      · rename_i hceq
        rw [hval, hceq, cnt_succ_of _ (h.cell_eq_code hlen)]
        push_cast
        rfl
      · rename_i hceq
        rw [hcnt c hc, cnt_succ_of_not]
        rw [h.cell_eq_code hlen]
        omega

theorem freq_returns (h : Input F text textMax) (htm : 0 < textMax) {tmp : Array Int}
    (ht : Tables F text textMax haveFreq tmp) :
    Returns (freq F text textMax tmp haveFreq) fun r =>
      r.1 = 0 ∧ Tables F text textMax haveFreq r.2 ∧
        ∀ c, c < textMax → cell r.2 c = count text c := by
  have hsize := ht.size
  have hoff : (if (F.byteText && !haveFreq) = true then textMax else 0) = 0 := by
    cases hb : F.byteText with
    | false => simp
    | true => simp [ht.byte hb]
  have hfresh : Returns (do
      let tmp ← forUp (fun i tmp => put tmp (0 + i) (0 : Int)) 0 (F.tableLen textMax) tmp
      let tmp ← forEach (fun c tmp => do
        let f ← tmp[0 + usize c]?
        let f ← F.checked (f + 1)
        put tmp (0 + usize c) f) text.toList tmp
      some (0, tmp)) fun r : Nat × Array Int => r.1 = 0 ∧ Tables F text textMax haveFreq r.2 ∧
        ∀ c, c < textMax → cell r.2 c = count text c := by
    rw [h.tableLen_eq]
    refine Returns.bind (clear_returns 0 textMax tmp (by omega)) ?_
    rintro tmp₁ ⟨hs₁, hzero, -⟩
    simp only [Nat.zero_add] at hzero
    refine Returns.bind (tally_returns h (by omega) hzero) ?_
    rintro tmp₂ ⟨hs₂, hcount⟩
    refine Returns.pure ⟨rfl, ?_, hcount⟩
    exact {
      size := by simpa [hs₁, hs₂] using ht.size
      size_freq := by simpa [hs₁, hs₂] using ht.size_freq
      byte := ht.byte
      freq := fun _ => .inr hcount }
  unfold freq
  simp only [hoff]
  cases hf : haveFreq with
  | false =>
      subst hf
      simpa using hfresh
  | true =>
      subst hf
      rw [getElem?_eq_cell (by omega)]
      by_cases hneg : 0 ≤ cell tmp 0
      · have hcount := (ht.freq rfl).resolve_left (by omega)
        exact Returns.of_eq (a := (0, tmp)) (by simp [hneg]) ⟨rfl, ht, hcount⟩
      · simpa [hneg] using hfresh

/-- What the bucket loops keep: the entries below `i` are written, those from
`i` on still hold frequencies, and the frequency table, when it is apart, is
not touched. -/
structure BucketLoop (F : Family) (text : Array Int) (textMax : Nat) (haveFreq : Bool)
    (index : Nat → Nat) (i : Nat) (tmp : Array Int) : Prop where
  tables : Tables F text textMax haveFreq tmp
  freq : ∀ c, i ≤ c → c < textMax → cell tmp c = count text c
  bucket : ∀ c, c < i → cell tmp (F.boff textMax haveFreq + c) = index c

theorem BucketLoop.step {index : Nat → Nat} {i : Nat} {tmp : Array Int} {v : Int}
    (hb : BucketLoop F text textMax haveFreq index i tmp) (hi : i < textMax)
    (hv : v = index i) : BucketLoop F text textMax haveFreq index (i + 1)
      (tmp.setIfInBounds (F.boff textMax haveFreq + i) v) where
  tables := hb.tables.set (by omega) v
  freq := by
    intro c hc hlt
    have hboff := hb.tables.boff_eq
    have hne : c ≠ F.boff textMax haveFreq + i := by
      split at hboff <;> omega
    rw [cell_set_ne _ hne]
    exact hb.freq c (by omega) hlt
  bucket := by
    intro c hc
    rw [cell_set v (hb.tables.boff_add_lt hi)]
    split
    · rename_i heq
      obtain rfl : c = i := by omega
      exact hv
    · exact hb.bucket c (by omega)

/-- The bucket table holds `index c` for every character. -/
def BucketTable (F : Family) (textMax : Nat) (haveFreq : Bool) (index : Nat → Nat)
    (tmp : Array Int) : Prop :=
  ∀ c, c < textMax → cell tmp (F.boff textMax haveFreq + c) = index c

theorem bucketMin_returns (h : Input F text textMax) (htm : 0 < textMax) {tmp : Array Int}
    (ht : Tables F text textMax haveFreq tmp) :
    Returns (bucketMin F text textMax tmp haveFreq) fun tmp' =>
      Tables F text textMax haveFreq tmp' ∧
        BucketTable F textMax haveFreq (minIndex text) tmp' := by
  unfold bucketMin
  refine Returns.bind (freq_returns h htm ht) ?_
  rintro ⟨foff, tmp₁⟩ ⟨rfl, ht₁, hcount⟩
  simp only [h.tableLen_eq]
  refine Returns.bind (forUp_returns (fun i (st : Array Int × Int) =>
    BucketLoop F text textMax haveFreq (minIndex text) i st.1 ∧
      st.2 = (minIndex text i : Int)) 0 textMax (tmp₁, 0) ⟨⟨ht₁, ?_, ?_⟩, ?_⟩ ?_) ?_
  · exact fun c _ hc => hcount c hc
  · omega
  · have : minIndex text 0 = 0 :=
      cnt_zero_of_none fun x hx => by have := h.ch_nonneg x hx; push_cast; omega
    simp [this]
  · rintro i ⟨tmp₂, total⟩ - hi ⟨hb, htotal⟩
    simp only [Nat.zero_add] at hi htotal ⊢
    have hfreq := hb.freq i le_rfl hi
    have hsum : total + cell tmp₂ i = (minIndex text (i + 1) : Int) := by
      rw [htotal, hfreq, minIndex_succ, maxIndex_eq]
      push_cast
      rfl
    have hle : minIndex text (i + 1) ≤ text.size := by
      rw [minIndex_succ]
      exact maxIndex_le text i
    have hlt := h.size_lt
    refine Returns.of_eq (a := (tmp₂.setIfInBounds (F.boff textMax haveFreq + i) total,
      total + cell tmp₂ i)) ?_ ⟨hb.step hi htotal, hsum⟩
    have hsz : textMax ≤ tmp₂.size := hb.tables.size
    rw [getElem?_eq_cell (by omega)]
    simp only [Option.bind_eq_bind, Option.bind_some]
    rw [put_eq_some _ (hb.tables.boff_add_lt hi), Option.bind_some,
      addTotal_eq_some h.bits_pos (by omega) (by omega), Option.bind_some]
  · rintro ⟨tmp₂, total⟩ ⟨hb, -⟩
    simp only [Nat.zero_add] at hb
    exact Returns.pure ⟨hb.tables, hb.bucket⟩

theorem bucketMax_returns (h : Input F text textMax) (htm : 0 < textMax) {tmp : Array Int}
    (ht : Tables F text textMax haveFreq tmp) :
    Returns (bucketMax F text textMax tmp haveFreq) fun tmp' =>
      Tables F text textMax haveFreq tmp' ∧
        BucketTable F textMax haveFreq (maxIndex text) tmp' := by
  unfold bucketMax
  refine Returns.bind (freq_returns h htm ht) ?_
  rintro ⟨foff, tmp₁⟩ ⟨rfl, ht₁, hcount⟩
  simp only [h.tableLen_eq]
  refine Returns.bind (forUp_returns (fun i (st : Array Int × Int) =>
    BucketLoop F text textMax haveFreq (maxIndex text) i st.1 ∧
      st.2 = (minIndex text i : Int)) 0 textMax (tmp₁, 0) ⟨⟨ht₁, ?_, ?_⟩, ?_⟩ ?_) ?_
  · exact fun c _ hc => hcount c hc
  · omega
  · have : minIndex text 0 = 0 :=
      cnt_zero_of_none fun x hx => by have := h.ch_nonneg x hx; push_cast; omega
    simp [this]
  · rintro i ⟨tmp₂, total⟩ - hi ⟨hb, htotal⟩
    simp only [Nat.zero_add] at hi htotal ⊢
    have hfreq := hb.freq i le_rfl hi
    have hsum : total + cell tmp₂ i = (maxIndex text i : Int) := by
      rw [htotal, hfreq, maxIndex_eq]
      push_cast
      rfl
    have hle := maxIndex_le text i
    have hlt := h.size_lt
    refine Returns.of_eq (a := (tmp₂.setIfInBounds (F.boff textMax haveFreq + i)
      (total + cell tmp₂ i), total + cell tmp₂ i)) ?_
      ⟨hb.step hi hsum, by rw [hsum, minIndex_succ]⟩
    have hsz : textMax ≤ tmp₂.size := hb.tables.size
    rw [getElem?_eq_cell (by omega)]
    simp only [Option.bind_eq_bind, Option.bind_some]
    rw [addTotal_eq_some h.bits_pos (by omega) (by omega), Option.bind_some,
      put_eq_some _ (hb.tables.boff_add_lt hi), Option.bind_some]
  · rintro ⟨tmp₂, total⟩ ⟨hb, -⟩
    simp only [Nat.zero_add] at hb
    exact Returns.pure ⟨hb.tables, hb.bucket⟩

end

end DirtybirdMiner.Sais.Buckets
