import Mathlib.Data.Nat.Bits
import Mathlib.Tactic.Ring

/-!
The checksum of an address string, from `block/src/bech32.rs`.  Its step is linear in
exclusive or, and injective on what it can reach.
-/

namespace DirtybirdMiner.Block.Polymod

/-- `i64`. -/
abbrev I64 : Type := BitVec 64

/-- `GENERATOR`. -/
def generator : List I64 := [0x3b6a57b2, 0x26508e6d, 0x1ea119fa, 0x3d4233dd, 0x2a1462b3]

/-- The body of the loop over the values. -/
def polymodStep (chk v : I64) : I64 :=
  let top := chk.sshiftRight 25
  let chk := ((chk &&& 0x1ffffff) <<< 5) ^^^ v
  (List.range 5).foldl (fun chk i =>
    if top.sshiftRight i &&& 1 = 1 then chk ^^^ generator.getD i 0 else chk) chk

/-- The loop, from some checksum on. -/
def polymodFrom (chk : I64) (values : List I64) : I64 := values.foldl polymodStep chk

def polymod (values : List I64) : I64 := polymodFrom 1 values

/-- `(mod_ >> (5 * (5 - p))) & 31`, for the six positions. -/
def checksumSymbols (mod_ : I64) : List I64 :=
  (List.range 6).map fun p => mod_.sshiftRight (5 * (5 - p)) &&& 31

section Linear

/-- The part of a generator that a bit of the checksum selects. -/
def selected (bit : Bool) (g : I64) : I64 := if bit then g else 0

/-- The step without the value. -/
def feed (chk : I64) : I64 :=
  ((chk &&& 0x1ffffff) <<< 5) ^^^ (selected (chk.getLsbD 25) 0x3b6a57b2 ^^^
    (selected (chk.getLsbD 26) 0x26508e6d ^^^ (selected (chk.getLsbD 27) 0x1ea119fa ^^^
    (selected (chk.getLsbD 28) 0x3d4233dd ^^^ selected (chk.getLsbD 29) 0x2a1462b3))))

theorem and_one_eq_one (x : I64) : x &&& 1 = 1 ↔ x.getLsbD 0 = true := by
  have h : x &&& 1#64 = BitVec.setWidth 64 (BitVec.ofBool (x.getLsbD 0)) :=
    BitVec.and_one_eq_setWidth_ofBool_getLsbD
  change x &&& 1#64 = 1#64 ↔ _
  rw [h]
  cases x.getLsbD 0 <;> decide

theorem top_bit (chk : I64) {i : Nat} (hi : i < 5) :
    (chk.sshiftRight 25).sshiftRight i &&& 1 = 1 ↔ chk.getLsbD (25 + i) = true := by
  rw [and_one_eq_one, BitVec.getLsbD_sshiftRight, BitVec.getLsbD_sshiftRight]
  simp [show i < 64 by omega, show 25 + i < 64 by omega]

theorem polymodStep_eq (chk v : I64) : polymodStep chk v = feed chk ^^^ v := by
  have hrange : List.range 5 = [0, 1, 2, 3, 4] := rfl
  unfold polymodStep feed
  dsimp only
  rw [hrange]
  simp only [List.foldl_cons, List.foldl_nil, top_bit chk (show 0 < 5 by omega),
    top_bit chk (show 1 < 5 by omega), top_bit chk (show 2 < 5 by omega),
    top_bit chk (show 3 < 5 by omega), top_bit chk (show 4 < 5 by omega), Nat.reduceAdd]
  have hselect : ∀ (b : Bool) (x g : I64),
      (if b = true then x ^^^ g else x) = x ^^^ selected b g := by
    intro b x g
    cases b <;> simp [selected]
  simp only [hselect, generator, List.getD_cons_zero, List.getD_cons_succ]
  ac_rfl

theorem selected_xor (a b : Bool) (g : I64) :
    selected (a ^^ b) g = selected a g ^^^ selected b g := by
  cases a <;> cases b <;> simp [selected]

theorem xor_zero (a : I64) : a ^^^ 0 = a := BitVec.xor_zero

theorem and_xor_distrib (a b m : I64) : (a ^^^ b) &&& m = (a &&& m) ^^^ (b &&& m) := by
  apply BitVec.eq_of_toNat_eq
  simp only [BitVec.toNat_and, BitVec.toNat_xor]
  exact Nat.and_xor_distrib_right

theorem feed_xor (a b : I64) : feed (a ^^^ b) = feed a ^^^ feed b := by
  unfold feed
  simp only [BitVec.getLsbD_xor, selected_xor, and_xor_distrib, BitVec.shiftLeft_xor_distrib]
  ac_rfl

/-- No bit from the `k`-th on is set. -/
def Below (k : Nat) (a : I64) : Prop := ∀ i, k ≤ i → a.getLsbD i = false

theorem below_of_lt {k : Nat} {a : I64} (h : a.toNat < 2 ^ k) : Below k a := by
  intro i hi
  exact Nat.testBit_lt_two_pow (lt_of_lt_of_le h (Nat.pow_le_pow_right (by decide) hi))

theorem Below.mono {k l : Nat} {a : I64} (h : Below k a) (hkl : k ≤ l) : Below l a :=
  fun i hi => h i (hkl.trans hi)

theorem Below.xor {k : Nat} {a b : I64} (ha : Below k a) (hb : Below k b) : Below k (a ^^^ b) := by
  intro i hi
  rw [BitVec.getLsbD_xor, ha i hi, hb i hi]
  rfl

theorem Below.shiftLeft {k : Nat} {a : I64} (h : Below k a) (n : Nat) : Below (k + n) (a <<< n) := by
  intro i hi
  rw [BitVec.getLsbD_shiftLeft, h (i - n) (by omega), Bool.and_false]

theorem Below.selected {k : Nat} {g : I64} (h : Below k g) (bit : Bool) :
    Below k (selected bit g) := by
  cases bit
  · exact below_of_lt (Nat.two_pow_pos k)
  · exact h

theorem mask_bit (i : Nat) : (0x1ffffff : I64).getLsbD i = decide (i < 25) := by
  change (BitVec.ofNat 64 (2 ^ 25 - 1)).getLsbD i = _
  rw [BitVec.getLsbD_ofNat, Nat.testBit_two_pow_sub_one]
  rcases Nat.lt_or_ge i 25 with hlt | hge
  · simp [hlt, show i < 64 by omega]
  · simp [Nat.not_lt.mpr hge]

theorem and_mask_below (a : I64) : Below 25 (a &&& 0x1ffffff) := by
  intro i hi
  rw [BitVec.getLsbD_and, mask_bit, decide_eq_false (Nat.not_lt.mpr hi), Bool.and_false]

theorem and_mask_eq {a : I64} (h : Below 25 a) : a &&& 0x1ffffff = a := by
  apply BitVec.eq_of_getLsbD_eq
  intro i _
  rw [BitVec.getLsbD_and, mask_bit]
  rcases Nat.lt_or_ge i 25 with hlt | hge
  · simp [hlt]
  · simp [h i hge]

/-- Below the top bits the step is a shift. -/
theorem feed_of_below {a : I64} (h : Below 25 a) : feed a = a <<< 5 := by
  unfold feed
  rw [and_mask_eq h, h 25 (by omega), h 26 (by omega), h 27 (by omega), h 28 (by omega),
    h 29 (by omega)]
  simp [selected]

theorem feed_below (a : I64) : Below 30 (feed a) := by
  unfold feed
  refine ((and_mask_below a).shiftLeft 5).xor ?_
  exact ((below_of_lt (by decide)).selected _).xor (((below_of_lt (by decide)).selected _).xor
    (((below_of_lt (by decide)).selected _).xor (((below_of_lt (by decide)).selected _).xor
    ((below_of_lt (by decide)).selected _))))

theorem polymodStep_below (chk : I64) {v : I64} (h : Below 30 v) : Below 30 (polymodStep chk v) := by
  rw [polymodStep_eq]
  exact (feed_below chk).xor h

/-- The five top bits can be read off the five bits that the generators leave alone behind
the shift. -/
theorem tops_of_low : ∀ b₀ b₁ b₂ b₃ b₄ : Bool,
    (∀ i < 5, (selected b₀ 0x3b6a57b2 ^^^ (selected b₁ 0x26508e6d ^^^ (selected b₂ 0x1ea119fa ^^^
      (selected b₃ 0x3d4233dd ^^^ selected b₄ 0x2a1462b3)))).getLsbD i = false) →
    b₀ = false ∧ b₁ = false ∧ b₂ = false ∧ b₃ = false ∧ b₄ = false := by
  decide

theorem eq_zero_of_feed {a : I64} (h : Below 30 a) (hfeed : feed a = 0) : a = 0 := by
  have hlow : ∀ i < 5, (selected (a.getLsbD 25) 0x3b6a57b2 ^^^ (selected (a.getLsbD 26) 0x26508e6d ^^^
      (selected (a.getLsbD 27) 0x1ea119fa ^^^ (selected (a.getLsbD 28) 0x3d4233dd ^^^
      selected (a.getLsbD 29) 0x2a1462b3)))).getLsbD i = false := by
    intro i hi
    have hbit := congrArg (fun x : I64 => x.getLsbD i) hfeed
    unfold feed at hbit
    rw [BitVec.getLsbD_xor, BitVec.getLsbD_shiftLeft] at hbit
    simpa [hi] using hbit
  obtain ⟨h25, h26, h27, h28, h29⟩ := tops_of_low _ _ _ _ _ hlow
  have hbelow : Below 25 a := by
    intro i hi
    rcases Nat.lt_or_ge i 30 with hlt | hge
    · rcases (show i = 25 ∨ i = 26 ∨ i = 27 ∨ i = 28 ∨ i = 29 by omega) with
        rfl | rfl | rfl | rfl | rfl
      · exact h25
      · exact h26
      · exact h27
      · exact h28
      · exact h29
    · exact h i hge
  rw [feed_of_below hbelow] at hfeed
  apply BitVec.eq_of_getLsbD_eq
  intro i hi
  rcases Nat.lt_or_ge i 25 with hlt | hge
  · have hbit := congrArg (fun x : I64 => x.getLsbD (i + 5)) hfeed
    rw [BitVec.getLsbD_shiftLeft] at hbit
    simpa [show i + 5 < 64 by omega] using hbit
  · simp [hbelow i hge]

theorem eq_of_xor_eq_zero {a b : I64} (h : a ^^^ b = 0) : a = b := by
  have := congrArg (· ^^^ b) h
  simpa [BitVec.xor_assoc] using this

/-- The step is injective. -/
theorem polymodStep_injective {a b v : I64} (ha : Below 30 a) (hb : Below 30 b)
    (h : polymodStep a v = polymodStep b v) : a = b := by
  rw [polymodStep_eq, polymodStep_eq] at h
  have hfeed : feed a = feed b := by
    have := congrArg (· ^^^ v) h
    simpa [BitVec.xor_assoc] using this
  apply eq_of_xor_eq_zero
  apply eq_zero_of_feed (ha.xor hb)
  rw [feed_xor, hfeed, BitVec.xor_self]
  rfl

end Linear

section Runs

theorem polymodFrom_append (chk : I64) (values more : List I64) :
    polymodFrom chk (values ++ more) = polymodFrom (polymodFrom chk values) more :=
  List.foldl_append

theorem polymodFrom_below {chk : I64} {values : List I64} (hchk : Below 30 chk)
    (h : ∀ v ∈ values, Below 30 v) : Below 30 (polymodFrom chk values) := by
  induction values generalizing chk with
  | nil => exact hchk
  | cons v values ih =>
      rw [List.forall_mem_cons] at h
      exact ih (polymodStep_below chk h.1) h.2

/-- A difference never goes away. -/
theorem polymodFrom_injective {a b : I64} {values : List I64} (ha : Below 30 a) (hb : Below 30 b)
    (h : ∀ v ∈ values, Below 30 v) (heq : polymodFrom a values = polymodFrom b values) : a = b := by
  induction values generalizing a b with
  | nil => exact heq
  | cons v values ih =>
      rw [List.forall_mem_cons] at h
      exact polymodStep_injective ha hb
        (ih (polymodStep_below a h.1) (polymodStep_below b h.1) h.2 heq)

/-- One changed value changes the checksum. -/
theorem polymod_ne {front back : List I64} {v w : I64} (hfront : ∀ x ∈ front, Below 30 x)
    (hback : ∀ x ∈ back, Below 30 x) (hv : Below 30 v) (hw : Below 30 w) (hne : v ≠ w) :
    polymod (front ++ v :: back) ≠ polymod (front ++ w :: back) := by
  intro heq
  rw [polymod, polymod, polymodFrom_append, polymodFrom_append] at heq
  have hstate := @polymodFrom_below 1 _ (below_of_lt (by decide)) hfront
  have hstep := polymodFrom_injective (polymodStep_below _ hv) (polymodStep_below _ hw) hback heq
  rw [polymodStep_eq, polymodStep_eq] at hstep
  have := congrArg (feed (polymodFrom 1 front) ^^^ ·) hstep
  simp only [← BitVec.xor_assoc, BitVec.xor_self, BitVec.zero_xor] at this
  exact hne this

/-- Symbols packed five bits each, the first highest. -/
def packed (acc : I64) (symbols : List I64) : I64 :=
  symbols.foldl (fun acc v => (acc <<< 5) ^^^ v) acc

/-- The last six values are not reduced: they are added to what zeros would leave. -/
theorem polymodFrom_packed {symbols : List I64} (h : ∀ v ∈ symbols, Below 5 v) (chk : I64)
    {k : Nat} {acc : I64} (hacc : Below (5 * k) acc) (hk : k + symbols.length ≤ 6) :
    polymodFrom (chk ^^^ acc) symbols =
      polymodFrom chk (List.replicate symbols.length 0) ^^^ packed acc symbols := by
  induction symbols generalizing chk k acc with
  | nil => rfl
  | cons v symbols ih =>
      rw [List.forall_mem_cons] at h
      rw [List.length_cons] at hk
      have hshift : feed acc = acc <<< 5 := feed_of_below (hacc.mono (by omega))
      have hstep : polymodStep (chk ^^^ acc) v = polymodStep chk 0 ^^^ (acc <<< 5 ^^^ v) := by
        rw [polymodStep_eq, polymodStep_eq, feed_xor, hshift, BitVec.xor_assoc, xor_zero]
      have hnext : Below (5 * (k + 1)) (acc <<< 5 ^^^ v) := by
        refine Below.xor ?_ (h.1.mono (by omega))
        exact (hacc.shiftLeft 5).mono (by omega)
      have hrest := ih h.2 (polymodStep chk 0) hnext (by omega)
      rw [← hstep] at hrest
      exact hrest

/-- A symbol behind a shift can be told from what was shifted. -/
theorem shift_xor_injective {a b v w : I64} (hv : Below 5 v) (hw : Below 5 w) (ha : Below 59 a)
    (hb : Below 59 b) (h : a <<< 5 ^^^ v = b <<< 5 ^^^ w) : a = b ∧ v = w := by
  have hbit : ∀ i < 64, ((!decide (i < 5) && a.getLsbD (i - 5)) ^^ v.getLsbD i) =
      ((!decide (i < 5) && b.getLsbD (i - 5)) ^^ w.getLsbD i) := by
    intro i hi
    have := congrArg (fun x : I64 => x.getLsbD i) h
    simp only [BitVec.getLsbD_xor, BitVec.getLsbD_shiftLeft] at this
    rwa [decide_eq_true hi, Bool.true_and] at this
  constructor
  · apply BitVec.eq_of_getLsbD_eq
    intro i hi
    rcases Nat.lt_or_ge i 59 with hlt | hge
    · have := hbit (i + 5) (by omega)
      simpa [hv (i + 5) (by omega), hw (i + 5) (by omega)] using this
    · rw [ha i hge, hb i hge]
  · apply BitVec.eq_of_getLsbD_eq
    intro i hi
    rcases Nat.lt_or_ge i 5 with hlt | hge
    · have := hbit i hi
      simpa [hlt] using this
    · rw [hv i hge, hw i hge]

theorem packed_injective {s t : List I64} (hs : ∀ v ∈ s, Below 5 v) (ht : ∀ v ∈ t, Below 5 v)
    (hlen : s.length = t.length) {k : Nat} {a b : I64} (ha : Below (5 * k) a) (hb : Below (5 * k) b)
    (hk : k + s.length ≤ 6) (h : packed a s = packed b t) : a = b ∧ s = t := by
  induction s generalizing t k a b with
  | nil =>
      have hnil := List.length_eq_zero_iff.mp hlen.symm
      subst hnil
      exact ⟨h, rfl⟩
  | cons v s ih =>
      cases t with
      | nil => cases hlen
      | cons w t =>
          rw [List.forall_mem_cons] at hs ht
          rw [List.length_cons] at hk
          rw [List.length_cons, List.length_cons, Nat.add_right_cancel_iff] at hlen
          have hnext : ∀ {x y : I64}, Below (5 * k) x → Below 5 y →
              Below (5 * (k + 1)) (x <<< 5 ^^^ y) := by
            intro x y hx hy
            refine Below.xor ?_ (hy.mono (by omega))
            exact (hx.shiftLeft 5).mono (by omega)
          obtain ⟨hacc, hrest⟩ := ih hs.2 ht.2 hlen (hnext ha hs.1) (hnext hb ht.1) (by omega) h
          obtain ⟨hab, hvw⟩ := shift_xor_injective hs.1 ht.1 (ha.mono (by omega))
            (hb.mono (by omega)) hacc
          exact ⟨hab, by rw [hvw, hrest]⟩

/-- Six last symbols are determined by the remainder. -/
theorem polymodFrom_symbols_injective {chk : I64} {s t : List I64} (hs : ∀ v ∈ s, Below 5 v)
    (ht : ∀ v ∈ t, Below 5 v) (hslen : s.length = 6) (htlen : t.length = 6)
    (h : polymodFrom chk s = polymodFrom chk t) : s = t := by
  have hzero : Below (5 * 0) (0 : I64) := below_of_lt (by decide)
  have hsrun := polymodFrom_packed hs chk hzero (by omega)
  have htrun := polymodFrom_packed ht chk hzero (by omega)
  rw [xor_zero, hslen] at hsrun
  rw [xor_zero, htlen] at htrun
  rw [hsrun, htrun] at h
  have hpacked : packed 0 s = packed 0 t := by
    have := congrArg (polymodFrom chk (List.replicate 6 0) ^^^ ·) h
    simpa only [← BitVec.xor_assoc, BitVec.xor_self, BitVec.zero_xor] using this
  exact (packed_injective hs ht (hslen.trans htlen.symm) hzero hzero (by omega) hpacked).2

theorem symbol_eq {mod_ : I64} (h : Below 30 mod_) (n : Nat) :
    mod_.sshiftRight n = mod_ >>> n := by
  apply BitVec.sshiftRight_eq_of_msb_false
  rw [BitVec.msb_eq_getLsbD_last]
  exact h 63 (by omega)

theorem low_bit (i : Nat) : (31 : I64).getLsbD i = decide (i < 5) := by
  change (BitVec.ofNat 64 (2 ^ 5 - 1)).getLsbD i = _
  rw [BitVec.getLsbD_ofNat, Nat.testBit_two_pow_sub_one]
  rcases Nat.lt_or_ge i 5 with hlt | hge
  · simp [hlt, show i < 64 by omega]
  · simp [Nat.not_lt.mpr hge]

theorem low_below (a : I64) : Below 5 (a &&& 31) := by
  intro i hi
  rw [BitVec.getLsbD_and, low_bit, decide_eq_false (Nat.not_lt.mpr hi), Bool.and_false]

/-- Five bits split off and put back. -/
theorem split_low (a : I64) : (a >>> 5) <<< 5 ^^^ (a &&& 31) = a := by
  apply BitVec.eq_of_getLsbD_eq
  intro i hi
  rw [BitVec.getLsbD_xor, BitVec.getLsbD_shiftLeft, BitVec.getLsbD_ushiftRight, BitVec.getLsbD_and,
    low_bit]
  rcases Nat.lt_or_ge i 5 with hlt | hge
  · simp [hlt]
  · simp [hi, Nat.not_lt.mpr hge, show 5 + (i - 5) = i by omega]

theorem packed_checksumSymbols {mod_ : I64} (h : Below 30 mod_) :
    packed 0 (checksumSymbols mod_) = mod_ := by
  have hsplit : ∀ n, (mod_ >>> (n + 5)) <<< 5 ^^^ (mod_ >>> n &&& (31 : I64)) = mod_ >>> n := by
    intro n
    rw [BitVec.shiftRight_add]
    exact split_low _
  have htop : mod_ >>> 25 &&& (31 : I64) = mod_ >>> 25 := by
    apply BitVec.eq_of_getLsbD_eq
    intro i _
    rw [BitVec.getLsbD_and, low_bit, BitVec.getLsbD_ushiftRight]
    rcases Nat.lt_or_ge i 5 with hlt | hge
    · simp [hlt]
    · simp [h (25 + i) (by omega)]
  have hrange : List.range 6 = [0, 1, 2, 3, 4, 5] := rfl
  simp only [checksumSymbols, hrange, packed, List.map_cons, List.map_nil, symbol_eq h,
    List.foldl_cons, List.foldl_nil, Nat.reduceSub, Nat.reduceMul]
  have hzero : (0 : I64) <<< 5 ^^^ (mod_ >>> 25 &&& (31 : I64)) = mod_ >>> 25 := by
    rw [htop]
    simp
  rw [hzero, hsplit 20, hsplit 15, hsplit 10, hsplit 5, hsplit 0]
  simp

theorem checksumSymbols_below (mod_ : I64) : ∀ v ∈ checksumSymbols mod_, Below 5 v := by
  intro v hv
  obtain ⟨p, -, rfl⟩ := List.mem_map.mp hv
  exact low_below _

@[simp] theorem checksumSymbols_length (mod_ : I64) : (checksumSymbols mod_).length = 6 := by
  simp [checksumSymbols]

/-- The checksum that is appended makes the remainder one. -/
theorem polymod_checksum {values : List I64} (h : ∀ v ∈ values, Below 30 v) :
    polymod (values ++ checksumSymbols (polymod (values ++ List.replicate 6 0) ^^^ 1)) = 1 := by
  have hbelow : Below 30 (polymod (values ++ List.replicate 6 0) ^^^ 1) := by
    refine Below.xor ?_ (below_of_lt (by decide))
    apply polymodFrom_below (below_of_lt (by decide))
    intro v hv
    rcases List.mem_append.mp hv with hv | hv
    · exact h v hv
    · rw [List.eq_of_mem_replicate hv]
      exact below_of_lt (by decide)
  have hrun := @polymodFrom_packed _ (checksumSymbols_below
    (polymod (values ++ List.replicate 6 0) ^^^ 1)) (polymodFrom 1 values) 0 0
    (below_of_lt (by decide)) (by simp)
  rw [packed_checksumSymbols hbelow, checksumSymbols_length, xor_zero,
    ← polymodFrom_append, ← polymodFrom_append] at hrun
  refine Eq.trans hrun ?_
  change polymod _ ^^^ (polymod _ ^^^ 1) = 1
  rw [← BitVec.xor_assoc, BitVec.xor_self, BitVec.zero_xor]

end Runs

end DirtybirdMiner.Block.Polymod
