import DirtybirdMiner.Lib.Words
import Mathlib.Data.Nat.ModEq

/-!
Products of numbers given as 64-bit words.  The products of the 16-bit parts of one factor
with the 32-bit parts of the other are added up in cells that are 16 bits apart; passes over
every fourth cell then put the cells together to words.
-/

namespace DirtybirdMiner.Lib.Products

open DirtybirdMiner.Lib.Words

section Model

variable {α : Type} [Add α]

/-- Adds values to the cells from some place on. -/
def addAt : Nat → List α → List α → List α
  | 0, v :: values, c :: cells => (c + v) :: addAt 0 values cells
  | place + 1, values, c :: cells => c :: addAt place values cells
  | _, _, cells => cells

/-- The six partial products of two words. -/
def partials (ai bj : UInt64) : List UInt64 :=
  let a0 := ai &&& 0xffff
  let a1 := (ai >>> 16) &&& 0xffff
  let a2 := (ai >>> 32) &&& 0xffff
  let a3 := ai >>> 48
  let b0 := bj &&& 0xffffffff
  let b2 := bj >>> 32
  [a0 * b0, a1 * b0, a2 * b0 + a0 * b2, a3 * b0 + a1 * b2, a2 * b2, a3 * b2]

variable (products : UInt64 → UInt64 → List α)

/-- The products with one word, four cells further for every word. -/
def addRow (ai : UInt64) : Nat → List UInt64 → List α → List α
  | _, [], buff => buff
  | off, bj :: b, buff => addRow ai (off + 4) b (addAt off (products ai bj) buff)

def addRows : Nat → List UInt64 → List UInt64 → List α → List α
  | _, [], _, buff => buff
  | off, ai :: a, b, buff => addRows (off + 4) a b (addRow products ai off b buff)

/-- The rows without the products that come behind the first words. -/
def addHalfRows (words : Nat) : Nat → List UInt64 → List UInt64 → List α → List α
  | _, [], _, buff => buff
  | i, ai :: a, b, buff =>
      addHalfRows words (i + 1) a b (addRow products ai (4 * i) (b.take (words - i)) buff)

/-- One pass over the blocks of four cells: the cell `i` of each is shifted and added to the
first one. -/
def combine (i : Nat) : Nat → UInt64 → UInt64 → List UInt64 → List UInt64
  | blocks + 1, head, carry, x0 :: x1 :: x2 :: x3 :: rest =>
      let cell := [x0, x1, x2, x3].getD i 0
      let yi := (cell <<< UInt64.ofNat (16 * i)) + head
      let zi := x0 + yi + carry
      zi :: x1 :: x2 :: x3 ::
        combine i blocks (cell >>> UInt64.ofNat (64 - 16 * i)) (carryOut x0 yi zi) rest
  | _, _, _, buff => buff

def combineAll (blocks : Nat) (buff : List UInt64) : List UInt64 :=
  combine 3 blocks 0 0 (combine 2 blocks 0 0 (combine 1 blocks 0 0 buff))

/-- Every fourth cell. -/
def column : Nat → List UInt64 → List UInt64
  | blocks + 1, x0 :: _ :: _ :: _ :: rest => x0 :: column blocks rest
  | _, _ => []

end Model

section Cells

/-- The number of cells that are 16 bits apart. -/
def cellsValue : List Nat → Nat
  | [] => 0
  | c :: cells => c + 2 ^ 16 * cellsValue cells

theorem cellsValue_zeros (n : Nat) : cellsValue (List.replicate n 0) = 0 := by
  induction n with
  | zero => rfl
  | succ n ih => simp [List.replicate_succ, cellsValue, ih]

@[simp] theorem addAt_length {α : Type} [Add α] (place : Nat) (values cells : List α) :
    (addAt place values cells).length = cells.length := by
  induction cells generalizing place values with
  | nil => cases place <;> cases values <;> rfl
  | cons c cells ih =>
      cases place with
      | zero =>
          cases values with
          | nil => rfl
          | cons v values => simp [addAt, ih]
      | succ place => simp [addAt, ih]

theorem cellsValue_addAt {place : Nat} {values cells : List Nat}
    (h : place + values.length ≤ cells.length) :
    cellsValue (addAt place values cells) =
      cellsValue cells + 2 ^ (16 * place) * cellsValue values := by
  induction cells generalizing place values with
  | nil =>
      rw [List.length_nil] at h
      obtain rfl : place = 0 := by omega
      obtain rfl : values = [] := List.length_eq_zero_iff.mp (by omega)
      rfl
  | cons c cells ih =>
      rw [List.length_cons] at h
      cases place with
      | zero =>
          cases values with
          | nil => rfl
          | cons v values =>
              rw [List.length_cons] at h
              rw [addAt, cellsValue, ih (by omega), cellsValue, cellsValue]
              ring
      | succ place =>
          rw [addAt, cellsValue, ih (by omega), cellsValue]
          ring

/-- The partial products, as numbers. -/
def exactPartials (ai bj : UInt64) : List Nat :=
  let a0 := ai.toNat % 2 ^ 16
  let a1 := ai.toNat / 2 ^ 16 % 2 ^ 16
  let a2 := ai.toNat / 2 ^ 32 % 2 ^ 16
  let a3 := ai.toNat / 2 ^ 48
  let b0 := bj.toNat % 2 ^ 32
  let b2 := bj.toNat / 2 ^ 32
  [a0 * b0, a1 * b0, a2 * b0 + a0 * b2, a3 * b0 + a1 * b2, a2 * b2, a3 * b2]

theorem cellsValue_exactPartials (ai bj : UInt64) :
    cellsValue (exactPartials ai bj) = ai.toNat * bj.toNat := by
  have ha : ai.toNat = ai.toNat % 2 ^ 16 + 2 ^ 16 * (ai.toNat / 2 ^ 16 % 2 ^ 16) +
      2 ^ 32 * (ai.toNat / 2 ^ 32 % 2 ^ 16) + 2 ^ 48 * (ai.toNat / 2 ^ 48) := by omega
  have hb : bj.toNat = bj.toNat % 2 ^ 32 + 2 ^ 32 * (bj.toNat / 2 ^ 32) := by omega
  conv_rhs => rw [ha, hb]
  simp only [exactPartials, cellsValue]
  ring

theorem cellsValue_addRow (ai : UInt64) {off : Nat} {b : List UInt64} {cells : List Nat}
    (h : off + 4 * b.length + 2 ≤ cells.length) :
    cellsValue (addRow exactPartials ai off b cells) =
      cellsValue cells + 2 ^ (16 * off) * (ai.toNat * wordsValue b) := by
  induction b generalizing off cells with
  | nil => simp [addRow, wordsValue]
  | cons bj b ih =>
      rw [List.length_cons] at h
      have hplace : off + (exactPartials ai bj).length ≤ cells.length := by
        change off + 6 ≤ cells.length
        omega
      rw [addRow, ih (by rw [addAt_length]; omega), cellsValue_addAt hplace,
        cellsValue_exactPartials, wordsValue]
      ring

@[simp] theorem addRow_length {α : Type} [Add α] (products : UInt64 → UInt64 → List α)
    (ai : UInt64) (off : Nat) (b : List UInt64) (buff : List α) :
    (addRow products ai off b buff).length = buff.length := by
  induction b generalizing off buff with
  | nil => rfl
  | cons bj b ih => rw [addRow, ih, addAt_length]

theorem cellsValue_addRows {off : Nat} {a b : List UInt64} {cells : List Nat}
    (h : off + 4 * (a.length + b.length) ≤ cells.length + 2) :
    cellsValue (addRows exactPartials off a b cells) =
      cellsValue cells + 2 ^ (16 * off) * (wordsValue a * wordsValue b) := by
  induction a generalizing off cells with
  | nil => simp [addRows, wordsValue]
  | cons ai a ih =>
      rw [List.length_cons] at h
      rw [addRows, ih (by rw [addRow_length]; omega), cellsValue_addRow ai (by omega), wordsValue]
      ring

/-- The products that are left out come behind the first words. -/
theorem cellsValue_addHalfRows {words i : Nat} {a b : List UInt64} {cells : List Nat}
    (ha : a.length + i = words) (hb : b.length = words) (h : 4 * words + 2 ≤ cells.length) :
    cellsValue (addHalfRows exactPartials words i a b cells) ≡
      cellsValue cells + 2 ^ (64 * i) * (wordsValue a * wordsValue b) [MOD 2 ^ (64 * words)] := by
  induction a generalizing i cells with
  | nil =>
      rw [addHalfRows, wordsValue, Nat.zero_mul, Nat.mul_zero, Nat.add_zero]
  | cons ai a ih =>
      rw [List.length_cons] at ha
      have htake : (b.take (words - i)).length = words - i := by
        rw [List.length_take, hb]
        omega
      have hrow := @cellsValue_addRow ai (4 * i) (b.take (words - i)) cells (by rw [htake]; omega)
      have hlow : wordsValue b = wordsValue (b.take (words - i)) +
          2 ^ (64 * (words - i)) * wordsValue (b.drop (words - i)) := by
        conv_lhs => rw [← List.take_append_drop (words - i) b]
        rw [wordsValue_append, htake]
      have hpow : 2 ^ (64 * words) = 2 ^ (64 * i) * 2 ^ (64 * (words - i)) := by
        rw [← pow_add]
        congr 1
        omega
      have hexp : 16 * (4 * i) = 64 * i := by omega
      have hsucc : (2 : Nat) ^ (64 * (i + 1)) = 2 ^ (64 * i) * 2 ^ 64 := by
        rw [← pow_add]
        congr 1
      have hword : cellsValue cells + 2 ^ (64 * i) * (ai.toNat * wordsValue b) =
          cellsValue cells + 2 ^ (64 * i) * (ai.toNat * wordsValue (b.take (words - i))) +
            2 ^ (64 * words) * (ai.toNat * wordsValue (b.drop (words - i))) := by
        rw [hlow, hpow]
        ring
      have hcut : cellsValue (addRow exactPartials ai (4 * i) (b.take (words - i)) cells) ≡
          cellsValue cells + 2 ^ (64 * i) * (ai.toNat * wordsValue b) [MOD 2 ^ (64 * words)] := by
        rw [hrow, hexp, hword, Nat.ModEq, Nat.add_mul_mod_self_left]
      have hrest := @ih (i + 1)
        (addRow exactPartials ai (4 * i) (b.take (words - i)) cells) (by omega)
        (by rw [addRow_length]; exact h)
      have htotal : cellsValue cells + 2 ^ (64 * i) * (wordsValue (ai :: a) * wordsValue b) =
          cellsValue cells + 2 ^ (64 * i) * (ai.toNat * wordsValue b) +
            2 ^ (64 * (i + 1)) * (wordsValue a * wordsValue b) := by
        rw [wordsValue, hsucc]
        ring
      rw [addHalfRows, htotal]
      exact hrest.trans (Nat.ModEq.add_right _ hcut)

end Cells

section Exact

/-- The cells hold the numbers, which are bounded. -/
structure Exact (bound : Nat) (buff : List UInt64) (cells : List Nat) : Prop where
  cells_eq : buff.map UInt64.toNat = cells
  le : ∀ c ∈ cells, c ≤ bound

theorem Exact.nil (bound : Nat) : Exact bound [] [] := ⟨rfl, by simp⟩

theorem exact_cons {bound : Nat} {x : UInt64} {buff : List UInt64} {c : Nat} {cells : List Nat} :
    Exact bound (x :: buff) (c :: cells) ↔ (x.toNat = c ∧ c ≤ bound) ∧ Exact bound buff cells := by
  constructor
  · rintro ⟨heq, hle⟩
    rw [List.map_cons, List.cons.injEq] at heq
    rw [List.forall_mem_cons] at hle
    exact ⟨⟨heq.1, hle.1⟩, heq.2, hle.2⟩
  · rintro ⟨⟨hx, hc⟩, heq, hle⟩
    exact ⟨by rw [List.map_cons, hx, heq], List.forall_mem_cons.mpr ⟨hc, hle⟩⟩

theorem Exact.mono {bound bound' : Nat} {buff : List UInt64} {cells : List Nat}
    (h : Exact bound buff cells) (hle : bound ≤ bound') : Exact bound' buff cells :=
  ⟨h.cells_eq, fun c hc => (h.le c hc).trans hle⟩

/-- Cells and values that are small enough are added without a carry. -/
theorem Exact.addAt {bound more : Nat} {buff values : List UInt64} {cells numbers : List Nat}
    (h : Exact bound buff cells) (hvalues : Exact more values numbers)
    (hlt : bound + more < 2 ^ 64) (place : Nat) :
    Exact (bound + more) (addAt place values buff) (addAt place numbers cells) := by
  induction buff generalizing cells values numbers place with
  | nil =>
      obtain rfl : cells = [] := h.cells_eq.symm
      cases place <;> cases values <;> cases numbers <;> exact .nil _
  | cons x buff ih =>
      obtain ⟨c, cells, rfl⟩ : ∃ c rest, cells = c :: rest := ⟨_, _, h.cells_eq.symm⟩
      obtain ⟨⟨hx, hc⟩, hrest⟩ := exact_cons.mp h
      cases place with
      | zero =>
          cases values with
          | nil =>
              obtain rfl : numbers = [] := hvalues.cells_eq.symm
              exact h.mono (Nat.le_add_right _ _)
          | cons v values =>
              obtain ⟨n, numbers, rfl⟩ : ∃ n rest, numbers = n :: rest :=
                ⟨_, _, hvalues.cells_eq.symm⟩
              obtain ⟨⟨hv, hn⟩, hmore⟩ := exact_cons.mp hvalues
              refine exact_cons.mpr ⟨⟨?_, by omega⟩, ih hrest hmore 0⟩
              rw [UInt64.toNat_add, hx, hv, Nat.mod_eq_of_lt (by omega)]
      | succ place => exact exact_cons.mpr ⟨⟨hx, by omega⟩, ih hrest hvalues place⟩

private theorem mul_toNat {x y : UInt64} {m n k l : Nat} (hx : x.toNat = m) (hy : y.toNat = n)
    (hm : m < 2 ^ k) (hn : n < 2 ^ l) (hkl : k + l ≤ 64) :
    (x * y).toNat = m * n ∧ m * n ≤ 2 ^ (k + l) := by
  have hlt : m * n < 2 ^ (k + l) := by
    rw [pow_add]
    exact Nat.mul_lt_mul'' hm hn
  have hle : 2 ^ (k + l) ≤ 2 ^ 64 := Nat.pow_le_pow_right (by decide) hkl
  rw [UInt64.toNat_mul, hx, hy, Nat.mod_eq_of_lt (hlt.trans_le hle)]
  exact ⟨rfl, hlt.le⟩

private theorem add_toNat {x y : UInt64} {m n : Nat} (hx : x.toNat = m ∧ m ≤ 2 ^ 48)
    (hy : y.toNat = n ∧ n ≤ 2 ^ 48) : (x + y).toNat = m + n ∧ m + n ≤ 2 ^ 49 := by
  obtain ⟨rfl, hm⟩ := hx
  obtain ⟨rfl, hn⟩ := hy
  rw [UInt64.toNat_add, Nat.mod_eq_of_lt (by omega)]
  exact ⟨rfl, by omega⟩

theorem exact_partials (ai bj : UInt64) :
    Exact (2 ^ 49) (partials ai bj) (exactPartials ai bj) := by
  have hai := ai.toNat_lt
  have hbj := bj.toNat_lt
  have ha0 : (ai &&& 0xffff).toNat = ai.toNat % 2 ^ 16 := by
    rw [UInt64.toNat_and]
    exact Nat.and_two_pow_sub_one_eq_mod ai.toNat 16
  have ha1 : ((ai >>> 16) &&& 0xffff).toNat = ai.toNat / 2 ^ 16 % 2 ^ 16 := by
    rw [UInt64.toNat_and, UInt64.toNat_shiftRight, Nat.shiftRight_eq_div_pow]
    exact Nat.and_two_pow_sub_one_eq_mod _ 16
  have ha2 : ((ai >>> 32) &&& 0xffff).toNat = ai.toNat / 2 ^ 32 % 2 ^ 16 := by
    rw [UInt64.toNat_and, UInt64.toNat_shiftRight, Nat.shiftRight_eq_div_pow]
    exact Nat.and_two_pow_sub_one_eq_mod _ 16
  have ha3 : (ai >>> 48).toNat = ai.toNat / 2 ^ 48 := by
    rw [UInt64.toNat_shiftRight, Nat.shiftRight_eq_div_pow]
    rfl
  have hb0 : (bj &&& 0xffffffff).toNat = bj.toNat % 2 ^ 32 := by
    rw [UInt64.toNat_and]
    exact Nat.and_two_pow_sub_one_eq_mod bj.toNat 32
  have hb2 : (bj >>> 32).toNat = bj.toNat / 2 ^ 32 := by
    rw [UInt64.toNat_shiftRight, Nat.shiftRight_eq_div_pow]
    rfl
  have h0 : ai.toNat % 2 ^ 16 < 2 ^ 16 := Nat.mod_lt _ (by decide)
  have h1 : ai.toNat / 2 ^ 16 % 2 ^ 16 < 2 ^ 16 := Nat.mod_lt _ (by decide)
  have h2 : ai.toNat / 2 ^ 32 % 2 ^ 16 < 2 ^ 16 := Nat.mod_lt _ (by decide)
  have h3 : ai.toNat / 2 ^ 48 < 2 ^ 16 := by omega
  have h0' : bj.toNat % 2 ^ 32 < 2 ^ 32 := Nat.mod_lt _ (by decide)
  have h2' : bj.toNat / 2 ^ 32 < 2 ^ 32 := by omega
  have hsmall : ∀ {x : UInt64} {n : Nat}, x.toNat = n ∧ n ≤ 2 ^ 48 → x.toNat = n ∧ n ≤ 2 ^ 49 :=
    fun h => ⟨h.1, h.2.trans (Nat.pow_le_pow_right (by decide) (by decide))⟩
  have p00 := mul_toNat ha0 hb0 h0 h0' (by decide)
  have p10 := mul_toNat ha1 hb0 h1 h0' (by decide)
  have p20 := mul_toNat ha2 hb0 h2 h0' (by decide)
  have p30 := mul_toNat ha3 hb0 h3 h0' (by decide)
  have p02 := mul_toNat ha0 hb2 h0 h2' (by decide)
  have p12 := mul_toNat ha1 hb2 h1 h2' (by decide)
  have p22 := mul_toNat ha2 hb2 h2 h2' (by decide)
  have p32 := mul_toNat ha3 hb2 h3 h2' (by decide)
  refine exact_cons.mpr ⟨hsmall p00, exact_cons.mpr ⟨hsmall p10, exact_cons.mpr ⟨?_, ?_⟩⟩⟩
  · exact add_toNat p20 p02
  · refine exact_cons.mpr ⟨add_toNat p30 p12, exact_cons.mpr ⟨hsmall p22, ?_⟩⟩
    exact exact_cons.mpr ⟨hsmall p32, .nil _⟩

theorem Exact.addRow {bound : Nat} {buff : List UInt64} {cells : List Nat}
    (h : Exact bound buff cells) (ai : UInt64) (off : Nat) (b : List UInt64)
    (hlt : bound + b.length * 2 ^ 49 < 2 ^ 64) :
    Exact (bound + b.length * 2 ^ 49) (addRow partials ai off b buff)
      (addRow exactPartials ai off b cells) := by
  induction b generalizing bound off buff cells with
  | nil => exact h.mono (Nat.le_add_right _ _)
  | cons bj b ih =>
      rw [List.length_cons, Nat.add_mul, Nat.one_mul, Nat.add_comm (b.length * 2 ^ 49), ← Nat.add_assoc]
        at hlt ⊢
      have hroom : bound + 2 ^ 49 < 2 ^ 64 := (Nat.le_add_right _ _).trans_lt hlt
      have hstep := h.addAt (exact_partials ai bj) hroom off
      exact ih hstep (off + 4) hlt

theorem Exact.addRows {bound : Nat} {buff : List UInt64} {cells : List Nat}
    (h : Exact bound buff cells) (off : Nat) (a b : List UInt64)
    (hlt : bound + a.length * (b.length * 2 ^ 49) < 2 ^ 64) :
    Exact (bound + a.length * (b.length * 2 ^ 49)) (addRows partials off a b buff)
      (addRows exactPartials off a b cells) := by
  induction a generalizing bound off buff cells with
  | nil => exact h.mono (Nat.le_add_right _ _)
  | cons ai a ih =>
      rw [List.length_cons, Nat.succ_mul] at hlt ⊢
      have hstep := h.addRow ai off b (by omega)
      have hrest := ih hstep (off + 4) (by omega)
      exact hrest.mono (by omega)

theorem Exact.addHalfRows {bound words : Nat} {buff : List UInt64} {cells : List Nat}
    (h : Exact bound buff cells) (i : Nat) (a b : List UInt64)
    (hlt : bound + a.length * (b.length * 2 ^ 49) < 2 ^ 64) :
    Exact (bound + a.length * (b.length * 2 ^ 49)) (addHalfRows partials words i a b buff)
      (addHalfRows exactPartials words i a b cells) := by
  induction a generalizing bound i buff cells with
  | nil => exact h.mono (Nat.le_add_right _ _)
  | cons ai a ih =>
      rw [List.length_cons, Nat.succ_mul] at hlt ⊢
      have htake : (b.take (words - i)).length * 2 ^ 49 ≤ b.length * 2 ^ 49 :=
        Nat.mul_le_mul_right _ (by rw [List.length_take]; exact Nat.min_le_right _ _)
      have hstep := h.addRow ai (4 * i) (b.take (words - i)) (by omega)
      have hrest := ih (hstep.mono (Nat.add_le_add_left htake _)) (i + 1) (by omega)
      exact hrest.mono (by omega)

theorem exact_zeros (n : Nat) : Exact 0 (List.replicate n 0) (List.replicate n 0) := by
  refine ⟨by simp, ?_⟩
  intro c hc
  rw [List.eq_of_mem_replicate hc]

end Exact

section Blocks

/-- The number of every fourth cell, from the cell `i` on. -/
def columnValue (i : Nat) : Nat → List UInt64 → Nat
  | blocks + 1, x0 :: x1 :: x2 :: x3 :: rest =>
      ([x0, x1, x2, x3].getD i 0).toNat + 2 ^ 64 * columnValue i blocks rest
  | _, _ => 0

theorem exists_block {blocks : Nat} {buff : List UInt64} (h : 4 * (blocks + 1) ≤ buff.length) :
    ∃ x0 x1 x2 x3 rest, buff = x0 :: x1 :: x2 :: x3 :: rest ∧ 4 * blocks ≤ rest.length := by
  obtain ⟨x0, buff, rfl⟩ := List.exists_cons_of_length_pos (by omega : 0 < buff.length)
  rw [List.length_cons] at h
  obtain ⟨x1, buff, rfl⟩ := List.exists_cons_of_length_pos (by omega : 0 < buff.length)
  rw [List.length_cons] at h
  obtain ⟨x2, buff, rfl⟩ := List.exists_cons_of_length_pos (by omega : 0 < buff.length)
  rw [List.length_cons] at h
  obtain ⟨x3, buff, rfl⟩ := List.exists_cons_of_length_pos (by omega : 0 < buff.length)
  rw [List.length_cons] at h
  exact ⟨x0, x1, x2, x3, buff, rfl, by omega⟩

@[simp] theorem combine_length (i blocks : Nat) (head carry : UInt64) (buff : List UInt64) :
    (combine i blocks head carry buff).length = buff.length := by
  fun_induction combine i blocks head carry buff with
  | case1 blocks head carry x0 x1 x2 x3 rest cell yi zi ih => simp [ih]
  | case2 => rfl

/-- The other columns stay as they are. -/
theorem columnValue_combine {i k : Nat} (hk : k = 1 ∨ k = 2 ∨ k = 3) (blocks : Nat)
    (head carry : UInt64) (buff : List UInt64) :
    columnValue k blocks (combine i blocks head carry buff) = columnValue k blocks buff := by
  fun_induction combine i blocks head carry buff with
  | case1 blocks head carry x0 x1 x2 x3 rest cell yi zi ih =>
      rw [columnValue, ih, columnValue]
      rcases hk with rfl | rfl | rfl <;> rfl
  | case2 => rfl

/-- A cell, split at the end of the word it is shifted in. -/
theorem shift_split (cell head : UInt64) {i : Nat} (hi : i = 1 ∨ i = 2 ∨ i = 3)
    (hhead : head.toNat < 2 ^ (16 * i)) :
    ((cell <<< UInt64.ofNat (16 * i)) + head).toNat +
        2 ^ 64 * (cell >>> UInt64.ofNat (64 - 16 * i)).toNat =
      2 ^ (16 * i) * cell.toNat + head.toNat ∧
      (cell >>> UInt64.ofNat (64 - 16 * i)).toNat < 2 ^ (16 * i) := by
  have hcell := cell.toNat_lt
  rcases hi with rfl | rfl | rfl
  all_goals
    rw [UInt64.toNat_add, UInt64.toNat_shiftLeft, UInt64.toNat_shiftRight, Nat.shiftLeft_eq,
      Nat.shiftRight_eq_div_pow]
    norm_num [UInt64.toNat_ofNat'] at hhead ⊢
    omega

/-- A pass adds a column, shifted, to the first one, up to what does not fit. -/
theorem columnValue_combine_zero {i : Nat} (hi : i = 1 ∨ i = 2 ∨ i = 3) {blocks : Nat}
    {head carry : UInt64} {buff : List UInt64} (hhead : head.toNat < 2 ^ (16 * i))
    (hcarry : carry.toNat ≤ 1) (hlength : 4 * blocks ≤ buff.length) :
    ∃ out, columnValue 0 blocks (combine i blocks head carry buff) + 2 ^ (64 * blocks) * out =
      columnValue 0 blocks buff + 2 ^ (16 * i) * columnValue i blocks buff + head.toNat +
        carry.toNat := by
  induction blocks generalizing head carry buff with
  | zero => exact ⟨head.toNat + carry.toNat, by simp [columnValue]⟩
  | succ blocks ih =>
      obtain ⟨x0, x1, x2, x3, rest, rfl, hrest⟩ := exists_block hlength
      let cell := [x0, x1, x2, x3].getD i 0
      let yi := (cell <<< UInt64.ofNat (16 * i)) + head
      obtain ⟨hsplit, hnext⟩ := shift_split cell head hi hhead
      have hword := add_carry x0 yi carry hcarry
      obtain ⟨out, hout⟩ := ih hnext (carryOut_le x0 yi (x0 + yi + carry)) hrest
      refine ⟨out, ?_⟩
      have hpow : 2 ^ (64 * (blocks + 1)) * out = 2 ^ 64 * (2 ^ (64 * blocks) * out) := by
        rw [Nat.mul_succ, pow_add]
        ring
      have hcolumn : 2 ^ (16 * i) * (cell.toNat + 2 ^ 64 * columnValue i blocks rest) =
          2 ^ (16 * i) * cell.toNat + 2 ^ 64 * (2 ^ (16 * i) * columnValue i blocks rest) := by
        ring
      rw [hpow]
      change (x0 + yi + carry).toNat + 2 ^ 64 * columnValue 0 blocks
          (combine i blocks (cell >>> UInt64.ofNat (64 - 16 * i))
            (carryOut x0 yi (x0 + yi + carry)) rest) +
        _ = x0.toNat + 2 ^ 64 * columnValue 0 blocks rest +
          2 ^ (16 * i) * (cell.toNat + 2 ^ 64 * columnValue i blocks rest) + _ + _
      rw [hcolumn]
      change yi.toNat + _ = _ at hsplit
      omega

/-- All three passes. -/
theorem columnValue_combineAll {blocks : Nat} {buff : List UInt64}
    (hlength : 4 * blocks ≤ buff.length) :
    columnValue 0 blocks (combineAll blocks buff) ≡
      columnValue 0 blocks buff + 2 ^ 16 * columnValue 1 blocks buff +
        2 ^ 32 * columnValue 2 blocks buff + 2 ^ 48 * columnValue 3 blocks buff
      [MOD 2 ^ (64 * blocks)] := by
  have hzero : (0 : UInt64).toNat = 0 := rfl
  obtain ⟨out1, h1⟩ := @columnValue_combine_zero _ (.inl rfl) _ 0 0 _ (by decide) (by decide)
    hlength
  obtain ⟨out2, h2⟩ := @columnValue_combine_zero _ (.inr (.inl rfl)) _ 0 0
    (combine 1 blocks 0 0 buff) (by decide) (by decide) (by rw [combine_length]; exact hlength)
  obtain ⟨out3, h3⟩ := @columnValue_combine_zero _ (.inr (.inr rfl)) _ 0 0
    (combine 2 blocks 0 0 (combine 1 blocks 0 0 buff)) (by decide) (by decide)
    (by rw [combine_length, combine_length]; exact hlength)
  rw [columnValue_combine (.inr (.inl rfl))] at h2
  rw [columnValue_combine (.inr (.inr rfl)), columnValue_combine (.inr (.inr rfl))] at h3
  rw [hzero, Nat.add_zero] at h1 h2 h3
  have htotal : columnValue 0 blocks (combineAll blocks buff) +
      2 ^ (64 * blocks) * (out1 + out2 + out3) =
      columnValue 0 blocks buff + 2 ^ 16 * columnValue 1 blocks buff +
        2 ^ 32 * columnValue 2 blocks buff + 2 ^ 48 * columnValue 3 blocks buff := by
    rw [combineAll, Nat.mul_add, Nat.mul_add]
    omega
  rw [← htotal, Nat.ModEq, Nat.add_mul_mod_self_left]

/-- The cells of the first blocks, by columns. -/
theorem cellsValue_columns {blocks : Nat} {buff : List UInt64}
    (hlength : 4 * blocks ≤ buff.length) :
    cellsValue (buff.map UInt64.toNat) ≡
      columnValue 0 blocks buff + 2 ^ 16 * columnValue 1 blocks buff +
        2 ^ 32 * columnValue 2 blocks buff + 2 ^ 48 * columnValue 3 blocks buff
      [MOD 2 ^ (64 * blocks)] := by
  induction blocks generalizing buff with
  | zero => exact Nat.modEq_one
  | succ blocks ih =>
      obtain ⟨x0, x1, x2, x3, rest, rfl, hrest⟩ := exists_block hlength
      have hpow : 2 ^ (64 * (blocks + 1)) = 2 ^ 64 * 2 ^ (64 * blocks) := by
        rw [Nat.mul_succ, pow_add, Nat.mul_comm]
      have hstep := ((ih hrest).mul_left' (2 ^ 64)).add_left
        (x0.toNat + 2 ^ 16 * x1.toNat + 2 ^ 32 * x2.toNat + 2 ^ 48 * x3.toNat)
      rw [hpow]
      convert hstep using 1
      · simp only [List.map_cons, cellsValue]
        ring
      · simp only [columnValue, List.getD_cons_zero, List.getD_cons_succ]
        ring

theorem wordsValue_column (blocks : Nat) (buff : List UInt64) :
    wordsValue (column blocks buff) = columnValue 0 blocks buff := by
  fun_induction column blocks buff with
  | case1 blocks x0 x1 x2 x3 rest ih =>
      rw [wordsValue, ih]
      rfl
  | case2 blocks buff hnot =>
      rw [wordsValue, columnValue]
      exact hnot

theorem column_length {blocks : Nat} {buff : List UInt64} (hlength : 4 * blocks ≤ buff.length) :
    (column blocks buff).length = blocks := by
  induction blocks generalizing buff with
  | zero => rfl
  | succ blocks ih =>
      obtain ⟨x0, x1, x2, x3, rest, rfl, hrest⟩ := exists_block hlength
      rw [column, List.length_cons, ih hrest]

@[simp] theorem combineAll_length (blocks : Nat) (buff : List UInt64) :
    (combineAll blocks buff).length = buff.length := by
  simp [combineAll]

/-- The words are the number of the cells, as far as there are blocks. -/
theorem wordsValue_combineAll {blocks : Nat} {buff : List UInt64}
    (hlength : 4 * blocks ≤ buff.length) :
    wordsValue (column blocks (combineAll blocks buff)) =
      cellsValue (buff.map UInt64.toNat) % 2 ^ (64 * blocks) := by
  have hlt := wordsValue_lt (column blocks (combineAll blocks buff))
  rw [column_length (by rwa [combineAll_length])] at hlt
  rw [← Nat.mod_eq_of_lt hlt, wordsValue_column]
  exact (columnValue_combineAll hlength).trans (cellsValue_columns hlength).symm

end Blocks

end DirtybirdMiner.Lib.Products
