import DirtybirdMiner.Crypto.Vectors
import DirtybirdMiner.Lib.Expansion
import Mathlib.Data.Nat.Digits.Defs

/-!
The polynomials that hide the two indices in the ring, from `crypto/src/polynomial.rs`
and `crypto/src/proof.rs`.  The prover expands a product of linear factors into rows of
coefficients, and the verifier expands the values of the factors at the challenge.
-/

namespace DirtybirdMiner.Crypto.Polynomials

open Finset (range)
open DirtybirdMiner.Lib.Checked
open DirtybirdMiner.Lib.Expansion
open DirtybirdMiner.Lib.Tables
open DirtybirdMiner.Crypto.Scalars
open DirtybirdMiner.Crypto.Vectors

section Prover

/-- The product with `m = [c0, c1]`; only for `c1 = 1` is the shifted row added. -/
def polynomialMul (p : List Nat) (m : Nat × Nat) : List Nat :=
  let product := p.map (fun pi => mul pi m.1) ++ [0]
  if m.2 = 1 then product.take 1 ++ List.zipWith Scalars.add (product.drop 1) p else product

def recurse (accum a b : List Nat) (list : List (List Nat)) : Option (List (List Nat)) :=
  if a = [] then some (list ++ [accum])
  else do
    let atop ← a[a.length - 1]?
    let btop ← b[b.length - 1]?
    let left := (neg atop, sub 1 btop)
    let right := (atop, btop)
    let list ← recurse (polynomialMul accum left) a.dropLast b.dropLast list
    recurse (polynomialMul accum right) a.dropLast b.dropLast list
  termination_by a.length
  decreasing_by
    all_goals
      have hpos := List.length_pos_iff.mpr ‹a ≠ []›
      rw [List.length_dropLast]
      omega

def recursivePolynomials (a b : List Nat) : Option (List (List Nat)) := recurse [1] a b []

/-- `P[i][j] = Pi[j][i]`. -/
def transposePolynomials (pi : List (List Nat)) (m : Nat) : Option (List (List Nat)) :=
  (List.range m).mapM fun i => pi.mapM fun row => row[i]?

/-- `b.times(&w).add(&a)`. -/
def fProof (a b : List Nat) (w : Nat) : Option (List Nat) :=
  FieldVector.add (FieldVector.times b w) a

/-- `{:0width$b}`: the binary digits, the highest first and at least one of them,
behind zeros up to the width. -/
def formatBinary (width n : Nat) : List Char :=
  List.replicate (width - (Nat.toDigits 2 n).length) '0' ++ Nat.toDigits 2 n

def witnessIndexBits (idx1 idx0 m : Nat) : List Char :=
  (formatBinary m idx1 ++ formatBinary m idx0).reverse

/-- The scalars that `generate_proof` reads from the characters. -/
def bitScalars (wi : List Char) : List Nat := wi.map fun ch => if ch = '1' then 1 else 0

end Prover

section Verifier

/-- The matrix of the pairs `[w - f_k, f_k]`. -/
def fMatrix (vector : List Nat) (w : Nat) : List (Nat × Nat) :=
  vector.map fun f1 => ((order + w - f1 % order) % order, f1)

/-- `current - baseline` panics below zero. -/
def recursivePolys (baseline current accum : Nat) (f : List (Nat × Nat)) : Option (List Nat) :=
  if current < baseline then none
  else if current = baseline then some [accum]
  else do
    let size := 2 ^ (current - baseline)
    let cur := current - 1
    let pair ← f[cur]?
    let left ← recursivePolys baseline cur (accum * pair.1 % order) f
    let right ← recursivePolys baseline cur (accum * pair.2 % order) f
    forUp (fun i result => do some ((result.set i (← left[i]?)).set (i + size / 2) (← right[i]?)))
      0 (size / 2) (List.replicate size 0)
  termination_by current - baseline

def assemblePolynomials (f : List (Nat × Nat)) : Option (List (Nat × Nat)) := do
  let m := f.length / 2
  let n := 2 ^ m
  let half0 ← recursivePolys (0 * m) ((0 + 1) * m) 1 f
  let half1 ← recursivePolys (1 * m) ((1 + 1) * m) 1 f
  (List.range n).mapM fun j => do some (← half0[j]?, ← half1[j]?)

end Verifier

section Rows

/-- The factors of the prover, on rows of coefficients. -/
def rowLeft (x : Nat × Nat) (accum : List Nat) : List Nat :=
  polynomialMul accum (neg x.1, sub 1 x.2)

def rowRight (x : Nat × Nat) (accum : List Nat) : List Nat := polynomialMul accum x

theorem recurse_eq (ab : List (Nat × Nat)) (accum : List Nat) (list : List (List Nat)) :
    recurse accum (ab.map Prod.fst) (ab.map Prod.snd) list =
      some (list ++ expand rowLeft rowRight ab.reverse accum) := by
  induction ab using List.reverseRecOn generalizing accum list with
  | nil => rw [recurse]; rfl
  | append_singleton ab x ih =>
      rw [recurse, if_neg (by simp)]
      simp [ih, expand, rowLeft, rowRight]

/-- The outcome `j` of the prover. -/
def row (a b : List Nat) (j : Nat) : List Nat := choose rowLeft rowRight (a.zip b).reverse [1] j

theorem recursivePolynomials_eq {a b : List Nat} {m : Nat} (ha : a.length = m)
    (hb : b.length = m) : recursivePolynomials a b = some (table (2 ^ m) (row a b)) := by
  have hrec := recurse_eq (a.zip b) [1] []
  rw [List.map_fst_zip (by omega), List.map_snd_zip (by omega), expand_eq_table,
    List.length_reverse, List.length_zip, ha, hb, Nat.min_self] at hrec
  exact hrec

end Rows

section Halves

def valueLeft (pair : Nat × Nat) (accum : Nat) : Nat := accum * pair.1 % order

def valueRight (pair : Nat × Nat) (accum : Nat) : Nat := accum * pair.2 % order

/-- The loop puts the two halves one behind the other. -/
theorem joinHalves (h : Nat) (l r : Nat → Nat) :
    forUp (fun i result => do
        some ((result.set i (← (table h l)[i]?)).set (i + 2 * h / 2) (← (table h r)[i]?)))
      0 (2 * h / 2) (List.replicate (2 * h) 0) = some (table h l ++ table h r) := by
  have hhalf : 2 * h / 2 = h := by omega
  let states : Nat → List Nat := fun i => table (2 * h) fun c =>
    if c < i then l c else if h ≤ c ∧ c < h + i then r (c - h) else 0
  have hstart : List.replicate (2 * h) 0 = states 0 := by
    rw [replicate_eq_table]
    apply table_congr
    intro c _
    rw [if_neg (Nat.not_lt_zero c), if_neg (by omega)]
  have hend : table h l ++ table h r = states (0 + h) := by
    rw [table_append, ← Nat.two_mul]
    apply table_congr
    intro c hc
    split
    · rw [if_pos (by omega)]
    · rw [if_neg (by omega), if_pos (by omega)]
  rw [hhalf, hstart, hend]
  apply forUp_states
  intro i _ hi
  rw [getElem?_table l (by omega), getElem?_table r (by omega)]
  refine congrArg some ?_
  rw [set_table, set_table]
  apply table_congr
  intro c _
  simp only [Function.update_apply]
  split
  · rename_i hc
    rw [if_neg (by omega), if_pos (by omega), hc, Nat.add_sub_cancel]
  · rename_i hc
    split
    · rename_i hci
      rw [if_pos (by omega), hci]
    · rename_i hci
      have hlt : c < i + 1 ↔ c < i := by omega
      have hup : (h ≤ c ∧ c < h + (i + 1)) ↔ (h ≤ c ∧ c < h + i) := by omega
      rw [if_congr hlt rfl (if_congr hup rfl rfl)]

theorem recursivePolys_expand {f : List (Nat × Nat)} {baseline d : Nat}
    (hd : baseline + d ≤ f.length) (accum : Nat) :
    recursivePolys baseline (baseline + d) accum f =
      some (expand valueLeft valueRight ((f.drop baseline).take d).reverse accum) := by
  induction d generalizing accum with
  | zero =>
      rw [Nat.add_zero, recursivePolys, if_neg (lt_irrefl baseline), if_pos rfl]
      rfl
  | succ d ih =>
      have hpair : (f.drop baseline)[d]? = some (f.get ⟨baseline + d, by omega⟩) := by
        rw [List.getElem?_drop, List.getElem?_eq_getElem (by omega)]
        rfl
      have htake : ((f.drop baseline).take (d + 1)).reverse =
          f.get ⟨baseline + d, by omega⟩ :: ((f.drop baseline).take d).reverse := by
        rw [List.take_add_one, hpair, Option.toList_some, List.reverse_append]
        rfl
      have hlength : ((f.drop baseline).take d).reverse.length = d := by
        rw [List.length_reverse, List.length_take, List.length_drop]
        omega
      have hsize : 2 ^ (baseline + (d + 1) - baseline) = 2 * 2 ^ d := by
        rw [Nat.add_sub_cancel_left, pow_succ']
      rw [recursivePolys, if_neg (by omega), if_neg (by omega), hsize]
      simp only [← Nat.add_assoc, Nat.add_sub_cancel, ← List.getElem?_drop, hpair, htake,
        Option.bind_eq_bind, Option.bind_some, ih (by omega)]
      rw [expand, valueLeft, valueRight]
      simp only [expand_eq_table, hlength]
      exact joinHalves (2 ^ d) _ _

end Halves

section Values

/-- The value of a row at the challenge, as a sum of powers. -/
theorem sum_powers_eq (p : List Nat) (w : Nat) :
    ∑ i ∈ range p.length, p.getD i 0 * w ^ i = Nat.ofDigits w p := by
  induction p with
  | nil => rfl
  | cons c p ih =>
      rw [List.length_cons, Finset.sum_range_succ', Nat.ofDigits_cons, ← ih, Finset.mul_sum, Nat.add_comm]
      congr 1
      · simp
      · apply Finset.sum_congr rfl
        intro i _
        rw [List.getD_cons_succ, pow_succ]
        ring

theorem ofDigits_scaled (w : Scalar) (p : List Nat) (c : Nat) :
    Nat.ofDigits w (p.map (fun pi => mul pi c) ++ [0]) = Nat.ofDigits w p * c := by
  induction p with
  | nil => simp [Nat.ofDigits]
  | cons x p ih =>
      rw [List.map_cons, List.cons_append, Nat.ofDigits, Nat.ofDigits, ih, cast_mul]
      ring

theorem ofDigits_sum (w : Scalar) {p q : List Nat} (h : p.length = q.length) :
    Nat.ofDigits w (List.zipWith Scalars.add p q) = Nat.ofDigits w p + Nat.ofDigits w q := by
  induction p generalizing q with
  | nil =>
      obtain rfl := List.length_eq_zero_iff.mp h.symm
      simp [Nat.ofDigits]
  | cons x p ih =>
      obtain ⟨y, q, rfl⟩ := List.exists_cons_of_length_eq_add_one h.symm
      rw [List.zipWith_cons_cons, Nat.ofDigits, Nat.ofDigits, Nat.ofDigits, ih (by simpa using h),
        cast_add]
      ring

/-- Where the linear coefficient is a bit, the product is that of the polynomials. -/
theorem ofDigits_polynomialMul (w : Scalar) (p : List Nat) {m : Nat × Nat}
    (hm : m.2 = 0 ∨ m.2 = 1) :
    Nat.ofDigits w (polynomialMul p m) = Nat.ofDigits w p * (m.1 + m.2 * w) := by
  have hscaled := ofDigits_scaled w p m.1
  unfold polynomialMul
  rcases hm with hm | hm
  · rw [if_neg (by omega), hscaled, hm]
    ring
  · obtain ⟨x, xs, hx⟩ : ∃ x xs, p.map (fun pi => mul pi m.1) ++ [0] = x :: xs :=
      List.exists_cons_of_ne_nil (by simp)
    have hlength : xs.length = p.length := by
      simpa using (congrArg List.length hx).symm
    rw [hx] at hscaled
    rw [if_pos hm, hx]
    change Nat.ofDigits w (x :: List.zipWith Scalars.add xs p) = _
    rw [Nat.ofDigits, ofDigits_sum w hlength, hm]
    rw [Nat.ofDigits] at hscaled
    linear_combination hscaled

/-- The value of a row, reduced. -/
def value (w : Nat) (p : List Nat) : Nat := Nat.ofDigits w p % order

theorem cast_value (w : Nat) (p : List Nat) :
    ((value w p : Nat) : Scalar) = Nat.ofDigits (w : Scalar) p := by
  rw [value, natCast_mod, Nat.coe_ofDigits]

/-- Reduced numbers with the same scalar are the same. -/
theorem eq_of_cast {a b : Nat} (ha : a < order) (hb : b < order) (h : (a : Scalar) = b) :
    a = b := by
  rw [ZMod.natCast_eq_natCast_iff', Nat.mod_eq_of_lt ha, Nat.mod_eq_of_lt hb] at h
  exact h

theorem value_lt (w : Nat) (p : List Nat) : value w p < order := Nat.mod_lt _ order_pos

/-- The pair of the verifier for one element of the vectors. -/
def parityPair (w : Nat) (x : Nat × Nat) : Nat × Nat :=
  let f1 := Scalars.add (mul x.2 w) x.1
  ((order + w - f1 % order) % order, f1)

theorem cast_parityPair_fst (w : Nat) (x : Nat × Nat) :
    (((parityPair w x).1 : Nat) : Scalar) = w - (x.2 * w + x.1) := by
  have hlt := Nat.mod_lt (Scalars.add (mul x.2 w) x.1) order_pos
  rw [parityPair, natCast_mod, Nat.cast_sub (by omega), Nat.cast_add, natCast_order, natCast_mod,
    cast_add, cast_mul]
  ring

theorem cast_parityPair_snd (w : Nat) (x : Nat × Nat) :
    (((parityPair w x).2 : Nat) : Scalar) = x.2 * w + x.1 := by
  rw [parityPair, cast_add, cast_mul]

theorem sub_one_bit {c : Nat} (hc : c = 0 ∨ c = 1) : sub 1 c = 1 - c := by
  rcases hc with rfl | rfl <;> decide +kernel

theorem value_rowLeft (w : Nat) {x : Nat × Nat} (hx : x.2 = 0 ∨ x.2 = 1) (p : List Nat) :
    value w (rowLeft x p) = valueLeft (parityPair w x) (value w p) := by
  apply eq_of_cast (value_lt w _) (Nat.mod_lt _ order_pos)
  rw [natCast_mod, Nat.cast_mul, cast_value, cast_value, cast_parityPair_fst, rowLeft,
    ofDigits_polynomialMul]
  · rw [cast_neg, cast_sub, Nat.cast_one]
    ring
  · rw [sub_one_bit hx]
    omega

theorem value_rowRight (w : Nat) {x : Nat × Nat} (hx : x.2 = 0 ∨ x.2 = 1) (p : List Nat) :
    value w (rowRight x p) = valueRight (parityPair w x) (value w p) := by
  apply eq_of_cast (value_lt w _) (Nat.mod_lt _ order_pos)
  rw [natCast_mod, Nat.cast_mul, cast_value, cast_value, cast_parityPair_snd, rowRight,
    ofDigits_polynomialMul w p hx]
  ring

end Values

section Outcomes

variable {a b : List Nat} {m : Nat}

theorem bits_of_mem_zip (hbits : ∀ x ∈ b, x = 0 ∨ x = 1) :
    ∀ x ∈ (a.zip b).reverse, x.2 = 0 ∨ x.2 = 1 := by
  intro x hx
  exact hbits x.2 (List.of_mem_zip (List.mem_reverse.mp hx)).2

/-- The values of the rows are the outcomes of the verifier. -/
theorem value_row (hbits : ∀ x ∈ b, x = 0 ∨ x = 1) (w j : Nat) :
    value w (row a b j) =
      choose valueLeft valueRight ((a.zip b).map (parityPair w)).reverse 1 j := by
  have hone : value w [1] = 1 := by
    rw [value, Nat.ofDigits_singleton]
    decide +kernel
  rw [← List.map_reverse, choose_comp, ← hone]
  apply choose_map
  · intro x hx p
    exact value_rowLeft w (bits_of_mem_zip hbits x hx) p
  · intro x hx p
    exact value_rowRight w (bits_of_mem_zip hbits x hx) p

theorem fProof_eq (ha : a.length = m) (hb : b.length = m) (w : Nat) :
    fProof a b w = some ((a.zip b).map fun x => Scalars.add (mul x.2 w) x.1) := by
  obtain ⟨f, rfl⟩ := exists_table 0 ha
  obtain ⟨g, rfl⟩ := exists_table 0 hb
  simp [fProof, FieldVector.add, FieldVector.times, Ops.addVec, Ops.timesVec, require, scalarOps]

theorem polynomialMul_length (p : List Nat) (x : Nat × Nat) :
    (polynomialMul p x).length = p.length + 1 := by
  unfold polynomialMul
  split
  · simp
    omega
  · simp

theorem row_length (ha : a.length = m) (hb : b.length = m) (j : Nat) :
    (row a b j).length = m + 1 := by
  have hcount : ∀ (l : List (Nat × Nat)) (accum : List Nat),
      (choose rowLeft rowRight l accum j).length = accum.length + l.length := by
    intro l
    induction l with
    | nil => exact fun _ => rfl
    | cons x l ih =>
        intro accum
        rw [choose, ih, List.length_cons]
        split
        · rw [rowRight, polynomialMul_length]
          omega
        · rw [rowLeft, polynomialMul_length]
          omega
  rw [row, hcount, List.length_reverse, List.length_zip, ha, hb, Nat.min_self]
  exact Nat.add_comm 1 m

/-- All coefficients are reduced. -/
theorem polynomialMul_lt (p : List Nat) (x : Nat × Nat) : ∀ c ∈ polynomialMul p x, c < order := by
  have hproduct : ∀ c ∈ p.map (fun pi => mul pi x.1) ++ [0], c < order := by
    intro c hc
    rw [List.mem_append, List.mem_map, List.mem_singleton] at hc
    rcases hc with ⟨pi, -, rfl⟩ | rfl
    · exact mul_lt pi x.1
    · exact order_pos
  unfold polynomialMul
  split
  · intro c hc
    rcases List.mem_append.mp hc with hc | hc
    · exact hproduct c (List.mem_of_mem_take hc)
    · obtain ⟨i, hi, rfl⟩ := List.getElem_of_mem hc
      rw [List.getElem_zipWith]
      exact add_lt _ _
  · exact hproduct

theorem row_lt (j : Nat) : ∀ c ∈ row a b j, c < order := by
  refine choose_induction (P := fun p : List Nat => ∀ c ∈ p, c < order) ?_ ?_ ?_ j
  · intro c hc
    rw [List.mem_singleton.mp hc]
    decide +kernel
  · exact fun x _ p _ => polynomialMul_lt p _
  · exact fun x _ p _ => polynomialMul_lt p _

end Outcomes

section Leading

/-- The last coefficient, reduced. -/
def leading (p : List Nat) : Nat := p.getLastD 0 % order

/-- The leading coefficient stays where the linear coefficient is one. -/
theorem leading_polynomialMul (p : List Nat) (x : Nat × Nat) :
    leading (polynomialMul p x) = if x.2 = 1 then leading p else 0 := by
  unfold polynomialMul
  split
  · induction p using List.reverseRecOn with
    | nil => rfl
    | append_singleton q y _ =>
        have hdrop : ((q ++ [y]).map (fun pi => mul pi x.1) ++ [0]).drop 1 =
            ((q ++ [y]).map fun pi => mul pi x.1).drop 1 ++ [0] := by
          rw [List.drop_append_of_le_length (by simp)]
        simp only [hdrop]
        rw [List.zipWith_append (by simp)]
        simp [leading, Scalars.add, ← List.append_assoc]
  · simp [leading]

def markLeft (x : Nat × Nat) (v : Nat) : Nat := if x.2 = 0 then v else 0

def markRight (x : Nat × Nat) (v : Nat) : Nat := if x.2 = 1 then v else 0

/-- The lowest `m` bits of the number, the least significant first. -/
def indexBits (m j : Nat) : List Nat := table m fun k => if j.testBit k then 1 else 0

/-- The mark survives where every bit is the one of the index. -/
theorem choose_mark (l : List (Nat × Nat)) (hl : ∀ x ∈ l, x.2 = 0 ∨ x.2 = 1) (v j : Nat) :
    choose markLeft markRight l v j =
      if l.map Prod.snd = (indexBits l.length j).reverse then v else 0 := by
  induction l generalizing v with
  | nil => rfl
  | cons x l ih =>
      have hbits : (indexBits (x :: l).length j).reverse =
          (if j.testBit l.length then 1 else 0) :: (indexBits l.length j).reverse := by
        rw [indexBits, List.length_cons, table_succ, List.reverse_append]
        rfl
      rw [choose, ih fun y hy => hl y (List.mem_cons_of_mem x hy), hbits, List.map_cons]
      rcases hl x (by simp) with hx | hx <;> cases j.testBit l.length <;>
        simp [markLeft, markRight, hx]

theorem row_leading {a b : List Nat} {m : Nat} (ha : a.length = m) (hb : b.length = m)
    (hbits : ∀ x ∈ b, x = 0 ∨ x = 1) (j : Nat) :
    (row a b j)[m]? = some (if b = indexBits m j then 1 else 0) := by
  have hlength := row_length ha hb j
  have hzip : (a.zip b).reverse.length = m := by simp [ha, hb]
  have hmark : leading (row a b j) = choose markLeft markRight (a.zip b).reverse 1 j := by
    have hone : leading [1] = 1 := by decide +kernel
    rw [← hone]
    apply choose_map
    · intro x hx p
      rw [rowLeft, leading_polynomialMul, sub_one_bit (bits_of_mem_zip hbits x hx), markLeft]
      rcases bits_of_mem_zip hbits x hx with h | h <;> simp [h]
    · intro x _ p
      rw [rowRight, leading_polynomialMul, markRight]
  rw [choose_mark _ (bits_of_mem_zip hbits), hzip, List.map_reverse, List.map_snd_zip (by omega)]
    at hmark
  simp only [List.reverse_inj] at hmark
  have hcell : (row a b j)[m]? = (row a b j).getLast? := by
    rw [List.getLast?_eq_getElem?, hlength, Nat.add_sub_cancel]
  have hne : row a b j ≠ [] := List.ne_nil_of_length_eq_add_one hlength
  have hlast := row_lt (a := a) (b := b) j _ (List.getLast_mem hne)
  rw [leading, List.getLastD_eq_getLast?, List.getLast?_eq_some_getLast hne, Option.getD_some,
    Nat.mod_eq_of_lt hlast] at hmark
  rw [hcell, List.getLast?_eq_some_getLast hne, hmark]

end Leading

section Strings

@[simp] theorem indexBits_length (m j : Nat) : (indexBits m j).length = m := table_length m _

theorem indexBits_succ (m j : Nat) : indexBits (m + 1) j = j % 2 :: indexBits m (j / 2) := by
  have hfirst : (if j % 2 = 1 then 1 else 0) = j % 2 := by
    rcases Nat.mod_two_eq_zero_or_one j with h | h <;> simp [h]
  simp [indexBits, table, List.range_succ_eq_map, hfirst, Nat.testBit_add_one, Function.comp_def]

theorem bitScalars_append (s t : List Char) :
    bitScalars (s ++ t) = bitScalars s ++ bitScalars t := List.map_append

theorem bitScalars_digit {d : Nat} (hd : d < 2) : bitScalars [d.digitChar] = [d] := by
  interval_cases d <;> rfl

theorem formatBinary_length {m n : Nat} (hn : n < 2 ^ (m + 1)) :
    (formatBinary (m + 1) n).length = m + 1 := by
  have hle := (Nat.length_toDigits_le_iff (b := 2) (by decide) (Nat.succ_pos m)).mpr hn
  rw [formatBinary, List.length_append, List.length_replicate]
  omega

/-- The digits are reversed into the bits, the least significant first. -/
theorem bitScalars_formatBinary {m n : Nat} (hn : n < 2 ^ (m + 1)) :
    bitScalars (formatBinary (m + 1) n).reverse = indexBits (m + 1) n := by
  induction m generalizing n with
  | zero =>
      rw [formatBinary, Nat.toDigits_of_lt_base (by omega), indexBits_succ,
        Nat.mod_eq_of_lt (by omega)]
      exact bitScalars_digit (by omega)
  | succ m ih =>
      rw [pow_succ] at hn
      have hhalf := ih (n := n / 2) (by omega)
      have hdigits : formatBinary (m + 1 + 1) n =
          formatBinary (m + 1) (n / 2) ++ [(n % 2).digitChar] := by
        rcases lt_or_ge n 2 with hlt | hge
        · have hzero : n / 2 = 0 := by omega
          rw [hzero, formatBinary, formatBinary, Nat.toDigits_of_lt_base hlt, Nat.toDigits_zero,
            Nat.mod_eq_of_lt hlt, List.append_left_inj]
          exact List.replicate_succ'
        · rw [formatBinary, formatBinary, Nat.toDigits_of_base_le (by decide) hge,
            List.length_append, List.length_singleton, List.append_assoc]
          congr 2
          omega
      rw [hdigits, List.reverse_append, bitScalars_append, indexBits_succ, hhalf,
        List.reverse_singleton, bitScalars_digit (Nat.mod_lt n (by decide))]
      rfl

end Strings

section Agreement

/-- At every index the verifier has the value of the prover's row at the challenge. -/
def ExpandAlike (a b : List Nat) (m w : Nat) : Prop :=
  ∃ vector rows half, fProof a b w = some vector ∧ recursivePolynomials a b = some rows ∧
    recursivePolys 0 m 1 (fMatrix vector w) = some half ∧
    ∀ j < 2 ^ m, ∃ p, rows[j]? = some p ∧ p.length = m + 1 ∧
      half[j]? = some ((∑ i ∈ range (m + 1), p.getD i 0 * w ^ i) % order)

/-- The highest coefficient marks the row whose index has the bits `b`. -/
def MarksIndex (a b : List Nat) (m : Nat) : Prop :=
  ∃ rows, recursivePolynomials a b = some rows ∧
    ∀ j < 2 ^ m, ∃ p, rows[j]? = some p ∧ p[m]? = some (if b = indexBits m j then 1 else 0)

/-- The two halves of the string are the bits of the two indices. -/
def SplitsBits (idx1 idx0 m : Nat) : Prop :=
  ∃ first second, witnessIndexBits idx1 idx0 m = first ++ second ∧
    first.length = second.length ∧
    bitScalars first = indexBits m idx0 ∧ bitScalars second = indexBits m idx1

variable {a b : List Nat} {m : Nat}

theorem fMatrix_responses (a b : List Nat) (w : Nat) :
    fMatrix ((a.zip b).map fun x => Scalars.add (mul x.2 w) x.1) w =
      (a.zip b).map (parityPair w) := by
  rw [fMatrix, List.map_map]
  rfl

/-- The verifier finds the values of the rows where the factors stand in the matrix. -/
theorem recursivePolys_values (ha : a.length = m) (hb : b.length = m)
    (hbits : ∀ x ∈ b, x = 0 ∨ x = 1) (w : Nat) (before after : List (Nat × Nat)) :
    recursivePolys before.length (before.length + m) 1
        (before ++ ((a.zip b).map (parityPair w) ++ after)) =
      some (table (2 ^ m) fun j => value w (row a b j)) := by
  have hlength : ((a.zip b).map (parityPair w)).length = m := by
    rw [List.length_map, List.length_zip, ha, hb, Nat.min_self]
  rw [recursivePolys_expand (by simp only [List.length_append, hlength]; omega),
    List.drop_left, List.take_left' hlength, expand_eq_table, List.length_reverse, hlength]
  refine congrArg some (table_congr ?_)
  intro j _
  rw [value_row hbits]

theorem expandAlike (ha : a.length = m) (hb : b.length = m) (hbits : ∀ x ∈ b, x = 0 ∨ x = 1)
    (w : Nat) : ExpandAlike a b m w := by
  have hhalf := recursivePolys_values ha hb hbits w [] []
  rw [List.length_nil, Nat.zero_add, List.nil_append, List.append_nil, ← fMatrix_responses] at hhalf
  refine ⟨_, _, _, fProof_eq ha hb w, recursivePolynomials_eq ha hb, hhalf, ?_⟩
  intro j hj
  refine ⟨row a b j, getElem?_table _ hj, row_length ha hb j, ?_⟩
  rw [getElem?_table _ hj, value, ← sum_powers_eq, row_length ha hb]

/-- The two columns of the verifier are the values of the prover's two families. -/
theorem assemblePolynomials_eq {a' b' : List Nat} (ha : a.length = m) (hb : b.length = m)
    (ha' : a'.length = m) (hb' : b'.length = m) (hbits : ∀ x ∈ b, x = 0 ∨ x = 1)
    (hbits' : ∀ x ∈ b', x = 0 ∨ x = 1) (w : Nat) {vector : List Nat}
    (hvector : fProof (a ++ a') (b ++ b') w = some vector) :
    assemblePolynomials (fMatrix vector w) =
      some (table (2 ^ m) fun j => (value w (row a b j), value w (row a' b' j))) := by
  have hwhole := fProof_eq (a := a ++ a') (b := b ++ b') (m := m + m) (by simp [ha, ha'])
    (by simp [hb, hb']) w
  obtain rfl := Option.some_inj.mp (hvector.symm.trans hwhole)
  have hzip : (a.zip b).length = m := by rw [List.length_zip, ha, hb, Nat.min_self]
  have hzip' : (a'.zip b').length = m := by rw [List.length_zip, ha', hb', Nat.min_self]
  have hlower := recursivePolys_values ha hb hbits w [] ((a'.zip b').map (parityPair w))
  have hupper := recursivePolys_values ha' hb' hbits' w ((a.zip b).map (parityPair w)) []
  rw [List.length_nil, Nat.zero_add, List.nil_append] at hlower
  rw [List.length_map, hzip, List.append_nil] at hupper
  have hhalf : (m + m) / 2 = m := by omega
  rw [fMatrix_responses, List.zip_append (by omega), List.map_append, assemblePolynomials]
  simp only [List.length_append, List.length_map, hzip, hzip', hhalf, Nat.zero_mul, Nat.zero_add,
    Nat.one_mul, Nat.add_mul, hlower, hupper, Option.bind_eq_bind, Option.bind_some]
  apply mapM_table
  intro j hj
  rw [getElem?_table _ hj, getElem?_table _ hj]
  rfl

/-- The columns that the prover commits to leave out the highest coefficient. -/
theorem transposePolynomials_eq (ha : a.length = m) (hb : b.length = m) {rows : List (List Nat)}
    (hrows : recursivePolynomials a b = some rows) :
    transposePolynomials rows m =
      some (table m fun i => table (2 ^ m) fun j => (row a b j).getD i 0) := by
  obtain rfl := Option.some_inj.mp (hrows.symm.trans (recursivePolynomials_eq ha hb))
  apply mapM_table
  intro i hi
  rw [table, List.mapM_map]
  apply mapM_table
  intro j hj
  have hcell : i < (row a b j).length := by
    rw [row_length ha hb]
    omega
  rw [Function.comp_apply, List.getD_eq_getElem?_getD, List.getElem?_eq_getElem hcell]
  rfl

theorem marksIndex (ha : a.length = m) (hb : b.length = m) (hbits : ∀ x ∈ b, x = 0 ∨ x = 1) :
    MarksIndex a b m := by
  refine ⟨_, recursivePolynomials_eq ha hb, ?_⟩
  intro j hj
  exact ⟨row a b j, getElem?_table _ hj, row_leading ha hb hbits j⟩

/-- A number has a binary digit also where the width is zero. -/
theorem splitsBits_iff {idx0 idx1 : Nat} (h0 : idx0 < 2 ^ m) (h1 : idx1 < 2 ^ m) :
    SplitsBits idx1 idx0 m ↔ 1 ≤ m := by
  constructor
  · rintro ⟨first, second, hstring, hlength, hfirst, -⟩
    by_contra hm
    obtain rfl : m = 0 := by omega
    have htotal := congrArg List.length hstring
    have hnone := congrArg List.length hfirst
    have hdigit : 0 < (formatBinary 0 idx0).length := by
      rw [formatBinary, List.length_append]
      exact Nat.lt_of_lt_of_le Nat.length_toDigits_pos (Nat.le_add_left _ _)
    rw [witnessIndexBits, List.length_reverse, List.length_append, List.length_append] at htotal
    rw [bitScalars, List.length_map, indexBits_length] at hnone
    omega
  · intro hm
    obtain ⟨k, rfl⟩ : ∃ k, m = k + 1 := ⟨m - 1, by omega⟩
    refine ⟨(formatBinary (k + 1) idx0).reverse, (formatBinary (k + 1) idx1).reverse,
      List.reverse_append, ?_, bitScalars_formatBinary h0, bitScalars_formatBinary h1⟩
    rw [List.length_reverse, List.length_reverse, formatBinary_length h0, formatBinary_length h1]

theorem polynomials_agree_iff (ha : a.length = m) (hb : b.length = m)
    (hbits : ∀ x ∈ b, x = 0 ∨ x = 1) (w : Nat) {idx0 idx1 : Nat} (h0 : idx0 < 2 ^ m)
    (h1 : idx1 < 2 ^ m) :
    (ExpandAlike a b m w ∧ MarksIndex a b m ∧ SplitsBits idx1 idx0 m) ↔ 1 ≤ m := by
  constructor
  · rintro ⟨-, -, hsplit⟩
    exact (splitsBits_iff h0 h1).mp hsplit
  · intro hm
    exact ⟨expandAlike ha hb hbits w, marksIndex ha hb hbits, (splitsBits_iff h0 h1).mpr hm⟩

theorem polynomials_agree_iff_two :
    ExpandAlike [5, 7] [0, 1] 2 11 ∧ MarksIndex [5, 7] [0, 1] 2 ∧ SplitsBits 1 2 2 :=
  (polynomials_agree_iff (a := [5, 7]) (b := [0, 1]) (m := 2) rfl rfl (by simp) 11
    (by decide) (by decide)).mpr (by decide)

/-- In a ring of one member the string still has a digit for each index. -/
theorem polynomials_disagree_zero :
    ¬(ExpandAlike [] [] 0 0 ∧ MarksIndex [] [] 0 ∧ SplitsBits 0 0 0) := by
  rintro ⟨-, -, first, second, hstring, hlength, hfirst, -⟩
  have hnone : first.length = 0 := by
    simpa [bitScalars] using congrArg List.length hfirst
  have htotal : (witnessIndexBits 0 0 0).length = 2 := by decide
  rw [hstring, List.length_append] at htotal
  omega

end Agreement

end DirtybirdMiner.Crypto.Polynomials
