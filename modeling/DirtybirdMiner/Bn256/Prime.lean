import DirtybirdMiner.Lib.Powers
import Mathlib.Tactic.NormNum.Prime

/-!
The base field of the curve and the order of its group, from
`cryptography/bn256/src/consts.rs`: both are primes, by chains of Lucas certificates,
and the first leaves the remainder 3 modulo 4.
-/

namespace DirtybirdMiner.Bn256.Prime

open DirtybirdMiner.Lib.Powers

/-- `field_prime()`, the number of `P_DECIMAL`. -/
def fieldPrime : Nat :=
  21888242871839275222246405745257275088696311157297823662689037894645226208583

/-- The field prime comes last, behind the primes of its certificate. -/
def fieldCertificates : List Certificate :=
  [
    ⟨3, 2, [2]⟩, ⟨13, 2, [2, 2, 3]⟩, ⟨7, 3, [2, 3]⟩, ⟨29, 2, [2, 2, 7]⟩, ⟨5, 2, [2, 2]⟩,
    ⟨11, 2, [2, 5]⟩, ⟨67, 2, [2, 3, 11]⟩, ⟨19, 2, [2, 3, 3]⟩, ⟨229, 6, [2, 2, 3, 19]⟩,
    ⟨31, 3, [2, 3, 5]⟩, ⟨311, 17, [2, 5, 31]⟩, ⟨491, 2, [2, 5, 7, 7]⟩, ⟨983, 5, [2, 491]⟩,
    ⟨5501, 2, [2, 2, 5, 5, 5, 11]⟩, ⟨11003, 2, [2, 5501]⟩, ⟨41, 6, [2, 2, 2, 5]⟩,
    ⟨3691, 2, [2, 3, 3, 5, 41]⟩, ⟨17, 3, [2, 2, 2, 2]⟩, ⟨4999, 3, [2, 3, 7, 7, 17]⟩,
    ⟨405928799, 22, [2, 11, 3691, 4999]⟩, ⟨37, 2, [2, 2, 3, 3]⟩, ⟨233, 3, [2, 2, 2, 29]⟩,
    ⟨327599, 19, [2, 19, 37, 233]⟩, ⟨11465965001, 3, [2, 2, 2, 5, 5, 5, 5, 7, 327599]⟩,
    ⟨271, 6, [2, 3, 3, 3, 5]⟩, ⟨1853641, 17, [2, 2, 2, 3, 3, 5, 19, 271]⟩,
    ⟨109, 6, [2, 2, 3, 3, 3]⟩, ⟨1231, 3, [2, 3, 5, 41]⟩, ⟨4562087, 5, [2, 17, 109, 1231]⟩,
    ⟨73, 5, [2, 2, 2, 3, 3]⟩, ⟨89, 3, [2, 2, 2, 11]⟩, ⟨2221, 2, [2, 2, 3, 5, 37]⟩,
    ⟨13327, 3, [2, 3, 2221]⟩, ⟨173171039, 13, [2, 73, 89, 13327]⟩, ⟨911, 17, [2, 5, 7, 13]⟩,
    ⟨127, 3, [2, 3, 3, 7]⟩, ⟨3557, 2, [2, 2, 7, 127]⟩,
    ⟨1263766531, 10, [2, 3, 5, 13, 911, 3557]⟩, ⟨35385462869, 2, [2, 2, 7, 1263766531]⟩,
    ⟨2480874801745591, 6, [2, 3, 3, 5, 19, 41, 35385462869]⟩,
    ⟨13427688667394608761327070753331941386769, 17,
      [2, 2, 2, 2, 3, 7, 11, 1853641, 4562087, 173171039, 2480874801745591]⟩,
    ⟨21888242871839275222246405745257275088696311157297823662689037894645226208583, 3,
      [2, 3, 3, 13, 29, 67, 229, 311, 983, 11003, 405928799, 11465965001,
      13427688667394608761327070753331941386769]⟩]

theorem fieldPrime_prime : fieldPrime.Prime := by
  have hcheck : checkAll [2] fieldCertificates = true := by decide +kernel
  have hprimes := prime_of_checkAll (by simpa using Nat.prime_two) hcheck
  exact hprimes ⟨fieldPrime, 3, _⟩ (List.mem_of_getLast? rfl)

theorem fieldPrime_mod_four : fieldPrime % 4 = 3 := by decide

instance : Fact fieldPrime.Prime := ⟨fieldPrime_prime⟩

/-- `group_order()`, the number of `ORDER_DECIMAL`. -/
def groupOrder : Nat :=
  21888242871839275222246405745257275088548364400416034343698204186575808495617

/-- The group order comes last, behind the primes of its certificate. -/
def orderCertificates : List Certificate :=
  [
    ⟨3, 2, [2]⟩, ⟨13, 2, [2, 2, 3]⟩, ⟨7, 3, [2, 3]⟩, ⟨29, 2, [2, 2, 7]⟩, ⟨5, 2, [2, 2]⟩,
    ⟨491, 2, [2, 5, 7, 7]⟩, ⟨983, 5, [2, 491]⟩, ⟨11, 2, [2, 5]⟩, ⟨5501, 2, [2, 2, 5, 5, 5, 11]⟩,
    ⟨11003, 2, [2, 5501]⟩, ⟨449, 3, [2, 2, 2, 2, 2, 2, 7]⟩,
    ⟨237073, 15, [2, 2, 2, 2, 3, 11, 449]⟩, ⟨41, 6, [2, 2, 2, 5]⟩, ⟨3691, 2, [2, 3, 3, 5, 41]⟩,
    ⟨17, 3, [2, 2, 2, 2]⟩, ⟨4999, 3, [2, 3, 7, 7, 17]⟩, ⟨405928799, 22, [2, 11, 3691, 4999]⟩,
    ⟨53, 2, [2, 2, 13]⟩, ⟨107, 2, [2, 53]⟩, ⟨661, 2, [2, 2, 3, 5, 11]⟩, ⟨31, 3, [2, 3, 5]⟩,
    ⟨93001, 14, [2, 2, 2, 3, 5, 5, 5, 31]⟩, ⟨12048837557, 2, [2, 2, 7, 7, 661, 93001]⟩,
    ⟨5156902474397, 2, [2, 2, 107, 12048837557]⟩,
    ⟨1670836401704629, 2, [2, 2, 3, 3, 3, 3, 5156902474397]⟩, ⟨137, 3, [2, 2, 2, 17]⟩,
    ⟨823, 3, [2, 3, 137]⟩, ⟨19, 2, [2, 3, 3]⟩, ⟨23, 5, [2, 11]⟩, ⟨47, 5, [2, 23]⟩,
    ⟨37, 2, [2, 2, 3, 3]⟩, ⟨223, 3, [2, 3, 37]⟩, ⟨20963, 2, [2, 47, 223]⟩,
    ⟨41927, 5, [2, 20963]⟩, ⟨1593227, 2, [2, 19, 41927]⟩, ⟨83, 2, [2, 41]⟩,
    ⟨379, 2, [2, 3, 3, 3, 7]⟩, ⟨409, 21, [2, 2, 2, 3, 17]⟩, ⟨1637, 2, [2, 2, 409]⟩,
    ⟨229, 6, [2, 2, 3, 19]⟩, ⟨71, 7, [2, 5, 7]⟩, ⟨853, 2, [2, 2, 3, 71]⟩,
    ⟨639533339, 2, [2, 229, 853, 1637]⟩, ⟨65865678001877903, 5, [2, 83, 379, 1637, 639533339]⟩,
    ⟨13818364434197438864469338081, 3, [2, 2, 2, 2, 2, 5, 823, 1593227, 65865678001877903]⟩,
    ⟨21888242871839275222246405745257275088548364400416034343698204186575808495617, 5,
      [2, 2, 2, 2, 2, 2, 2, 2, 2, 2, 2, 2, 2, 2, 2, 2, 2, 2, 2, 2, 2, 2, 2, 2, 2, 2, 2, 2, 3, 3,
      13, 29, 983, 11003, 237073, 405928799, 1670836401704629, 13818364434197438864469338081]⟩]

theorem groupOrder_prime : groupOrder.Prime := by
  have hcheck : checkAll [2] orderCertificates = true := by decide +kernel
  have hprimes := prime_of_checkAll (by simpa using Nat.prime_two) hcheck
  exact hprimes ⟨groupOrder, 5, _⟩ (List.mem_of_getLast? rfl)

instance : Fact groupOrder.Prime := ⟨groupOrder_prime⟩

end DirtybirdMiner.Bn256.Prime
