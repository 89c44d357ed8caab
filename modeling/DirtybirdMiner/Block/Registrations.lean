import DirtybirdMiner.Bn256.Group
import DirtybirdMiner.Crypto.Hashing
import DirtybirdMiner.Block.Blocks
import DirtybirdMiner.Lib.Schnorr

/-!
The signature of a registration, from `block/src/transaction.rs` and
`cryptography/crypto/src/keys.rs`: a Schnorr signature of the key itself, whose challenge is the
hash of the key and the commitment as text.
-/

namespace DirtybirdMiner.Block.Registrations

open DirtybirdMiner.Lib.Bytes
open DirtybirdMiner.Lib.Schnorr
open DirtybirdMiner.Bn256.Points
open DirtybirdMiner.Bn256.Encodings (pointOf)
open DirtybirdMiner.Crypto
open DirtybirdMiner.Crypto.Scalars (Scalar order)
open DirtybirdMiner.Crypto.Statements (PointCodec marshal compress decompress)
open DirtybirdMiner.Crypto.Hashing
open DirtybirdMiner.Block.Transactions
open DirtybirdMiner.Block.Blocks (hexDigit hexEncode)
open DirtybirdMiner.Block.TransactionCodec (somePoint)

section Text

/-- `G1.String()` of Go. -/
def pointToString {G : Type} [PointCodec G] (p : G) : String :=
  "bn256.G1(" ++ hexEncode ((marshal p).1.take 32) ++ ", " ++ hexEncode ((marshal p).1.drop 32) ++
    ")"

theorem hexDigit_inj : ∀ m < 16, ∀ n < 16, hexDigit m = hexDigit n → m = n := by
  decide

/-- The digits of some bytes, two for each. -/
def hexDigits (bytes : List UInt8) : List Char :=
  bytes.flatMap fun b => [hexDigit (b.toNat / 16), hexDigit (b.toNat % 16)]

theorem hexEncode_toList (bytes : List UInt8) : (hexEncode bytes).toList = hexDigits bytes :=
  String.toList_ofList

theorem hexDigits_length (bytes : List UInt8) : (hexDigits bytes).length = 2 * bytes.length := by
  induction bytes with
  | nil => rfl
  | cons b bytes ih =>
      rw [hexDigits, List.flatMap_cons, ← hexDigits, List.length_append, ih, List.length_cons]
      simp only [List.length_cons, List.length_nil]
      omega

theorem hexDigits_injective {s t : List UInt8} (h : hexDigits s = hexDigits t) : s = t := by
  induction s generalizing t with
  | nil =>
      cases t with
      | nil => rfl
      | cons b t => cases h
  | cons a s ih =>
      cases t with
      | nil => cases h
      | cons b t =>
          simp only [hexDigits, List.flatMap_cons, List.cons_append, List.nil_append,
            List.cons.injEq] at h
          obtain ⟨hhigh, hlow, hrest⟩ := h
          have ha := a.toNat_lt
          have hb := b.toNat_lt
          have hdiv := hexDigit_inj _ (by omega) _ (by omega) hhigh
          have hmod := hexDigit_inj _ (by omega) _ (by omega) hlow
          have hbyte : a = b := UInt8.toNat_inj.mp (by omega)
          rw [hbyte, ih hrest]

theorem unmarshal_marshal (g : G1) : G1.unmarshal g.marshal.1 = .ok g := by
  cases g with
  | infinity => rfl
  | affine P => exact G1.unmarshal_coordinates P

theorem pointToString_injective {g g' : G1} (h : pointToString g = pointToString g') : g = g' := by
  have hchars := congrArg String.toList h
  simp only [pointToString, String.toList_append, hexEncode_toList, List.append_assoc] at hchars
  obtain ⟨hx, hrest⟩ := List.append_inj (List.append_cancel_left hchars)
    (by simp [hexDigits_length, (marshal g).2, (marshal g').2])
  obtain ⟨hy, -⟩ := List.append_inj (List.append_cancel_left hrest)
    (by simp [hexDigits_length, (marshal g).2, (marshal g').2])
  have hbytes : g.marshal.1 = g'.marshal.1 := by
    rw [← List.take_append_drop 32 g.marshal.1, ← List.take_append_drop 32 g'.marshal.1]
    exact congrArg₂ (· ++ ·) (hexDigits_injective hx) (hexDigits_injective hy)
  have hread := unmarshal_marshal g
  rw [hbytes, unmarshal_marshal] at hread
  exact (Except.ok.inj hread).symm

end Text

section Verification

variable {G : Type} [AddCommGroup G] [PointCodec G] (E : Hashes G)

/-- What a challenge is the hash of. -/
def signedText (u tmppoint : G) : List UInt8 :=
  (pointToString u ++ pointToString tmppoint).toUTF8.data.toList

/-- The point the verifier recovers for a key. -/
def Transaction.tmppoint (tx : Transaction G) (u : G) : G :=
  let s := beValue tx.s.1
  let c := beValue tx.c.1
  let gs := s • E.generators.g
  let uc := c • u
  gs + -uc

def Transaction.isRegistrationValid (tx : Transaction G) : Bool :=
  if tx.txType ≠ .registration then false
  else
    match (decompress tx.minerAddress.1 : Except String G) with
    | .error _ => false
    | .ok u => beValue tx.c.1 = E.reducedHash (signedText u (Transaction.tmppoint E tx u))

end Verification

section Recovery

variable {G : Type} [AddCommGroup G] [Module Scalar G] (E : Hashes G)
  {tx tx' : Transaction G} {u : G}

theorem tmppoint_eq (tx : Transaction G) (u : G) :
    Transaction.tmppoint E tx u =
      commitment E.generators.g u (beValue tx.s.1 : Scalar) (beValue tx.c.1 : Scalar) := by
  rw [commitment, Nat.cast_smul_eq_nsmul, Nat.cast_smul_eq_nsmul, sub_eq_add_neg]
  rfl

/-- The honest response belongs to the commitment it was made for. -/
theorem tmppoint_honest {x k : Nat} (hu : u = x • E.generators.g)
    (hs : beValue tx.s.1 ≡ k + beValue tx.c.1 * x [MOD order]) :
    Transaction.tmppoint E tx u = k • E.generators.g := by
  have hscalars := (ZMod.natCast_eq_natCast_iff _ _ order).mpr hs
  rw [tmppoint_eq, hscalars, hu, ← Nat.cast_smul_eq_nsmul Scalar x, Nat.cast_add, Nat.cast_mul,
    commitment_honest, Nat.cast_smul_eq_nsmul]

theorem tmppoint_eq_iff (hg : E.generators.g ≠ 0) (hc : tx'.c = tx.c) :
    Transaction.tmppoint E tx u = Transaction.tmppoint E tx' u ↔
      beValue tx.s.1 ≡ beValue tx'.s.1 [MOD order] := by
  rw [tmppoint_eq, tmppoint_eq, hc, commitment_inj hg, ZMod.natCast_eq_natCast_iff]

/-- Two answers to one commitment give the secret away. -/
theorem secret_of_tmppoint_eq {E' : Hashes G} (hg : E'.generators.g = E.generators.g)
    (hc : beValue tx.c.1 < order) (hc' : beValue tx'.c.1 < order)
    (hne : beValue tx.c.1 ≠ beValue tx'.c.1)
    (h : Transaction.tmppoint E tx u = Transaction.tmppoint E' tx' u) :
    u = Scalars.mul (Scalars.sub (beValue tx.s.1) (beValue tx'.s.1))
      (Scalars.inv (Scalars.sub (beValue tx.c.1) (beValue tx'.c.1))) • E.generators.g := by
  have hscalars : (beValue tx.c.1 : Scalar) ≠ (beValue tx'.c.1 : Scalar) := by
    intro heq
    have hmod := (ZMod.natCast_eq_natCast_iff _ _ order).mp heq
    exact hne (Nat.ModEq.eq_of_lt_of_lt hmod hc hc')
  rw [tmppoint_eq, tmppoint_eq, hg] at h
  rw [← Nat.cast_smul_eq_nsmul Scalar, Scalars.cast_mul, Scalars.cast_sub, Scalars.cast_inv,
    Scalars.cast_sub]
  exact secret_of_commitment_eq hscalars h

end Recovery

section Validity

variable {G : Type} [AddCommGroup G] [PointCodec G] (E : Hashes G) {tx : Transaction G} {u : G}

theorem isRegistrationValid_iff (htype : tx.txType = .registration)
    (hkey : decompress tx.minerAddress.1 = .ok u) :
    Transaction.isRegistrationValid E tx = true ↔
      beValue tx.c.1 = E.reducedHash (signedText u (Transaction.tmppoint E tx u)) := by
  rw [Transaction.isRegistrationValid, if_neg (not_not.mpr htype), hkey]
  exact decide_eq_true_iff

/-- The challenge of a valid registration is reduced. -/
theorem challenge_lt (htype : tx.txType = .registration)
    (hkey : decompress tx.minerAddress.1 = .ok u)
    (hvalid : Transaction.isRegistrationValid E tx = true) : beValue tx.c.1 < order := by
  rw [(isRegistrationValid_iff E htype hkey).mp hvalid]
  exact reducedHash_lt E _

end Validity

section Signature

noncomputable instance : Module Scalar G1 := Vectors.moduleOfCard Bn256.Group.card_g1

theorem signedText_inj {u P P' : G1} (h : signedText u P = signedText u P') : P = P' := by
  have htext : pointToString u ++ pointToString P = pointToString u ++ pointToString P' :=
    String.toByteArray_inj.mp (ByteArray.ext (Array.toList_inj.mp h))
  have hchars := congrArg String.toList htext
  rw [String.toList_append, String.toList_append] at hchars
  exact pointToString_injective (String.toList_inj.mp (List.append_cancel_left hchars))

/-- The signature of a registration, for a generator that is not infinity (`hash_to_point` returns
no other): who knows the secret signs; a key and a challenge have one response modulo the order,
unless the hash has a collision, and nothing else of the transaction is signed; and who answers
two challenges for one commitment gives the secret away. -/
theorem registration_signature (E : Hashes G1) (tx : Transaction G1) (u : G1)
    (htype : tx.txType = .registration) (hkey : G1.decompress tx.minerAddress.1 = .ok u)
    (hg : E.generators.g ≠ 0) :
    (∀ x k : Nat, u = x • E.generators.g →
      beValue tx.s.1 ≡ k + beValue tx.c.1 * x [MOD order] →
      (Transaction.isRegistrationValid E tx = true ↔
        beValue tx.c.1 = E.reducedHash (signedText u (k • E.generators.g)))) ∧
    (∀ tx' : Transaction G1, tx'.txType = .registration → tx'.minerAddress = tx.minerAddress →
      tx'.c = tx.c → Transaction.isRegistrationValid E tx = true →
      (Transaction.isRegistrationValid E tx' = true ↔
        beValue tx.s.1 ≡ beValue tx'.s.1 [MOD order] ∨
        signedText u (Transaction.tmppoint E tx u) ≠ signedText u (Transaction.tmppoint E tx' u) ∧
          E.reducedHash (signedText u (Transaction.tmppoint E tx u)) =
            E.reducedHash (signedText u (Transaction.tmppoint E tx' u)))) ∧
    (∀ (E' : Hashes G1) (tx' : Transaction G1), E'.generators.g = E.generators.g →
      tx'.txType = .registration → tx'.minerAddress = tx.minerAddress →
      Transaction.isRegistrationValid E tx = true →
      Transaction.isRegistrationValid E' tx' = true →
      Transaction.tmppoint E tx u = Transaction.tmppoint E' tx' u → tx.c ≠ tx'.c →
      u = Scalars.mul (Scalars.sub (beValue tx.s.1) (beValue tx'.s.1))
        (Scalars.inv (Scalars.sub (beValue tx.c.1) (beValue tx'.c.1))) • E.generators.g) := by
  refine ⟨?_, ?_, ?_⟩
  · intro x k hu hs
    rw [isRegistrationValid_iff E htype hkey, tmppoint_honest E hu hs]
  · intro tx' htype' haddress hc hvalid
    have hkey' : G1.decompress tx'.minerAddress.1 = .ok u := haddress ▸ hkey
    rw [isRegistrationValid_iff E htype hkey] at hvalid
    rw [isRegistrationValid_iff E htype' hkey', hc, hvalid, ← tmppoint_eq_iff E (u := u) hg hc]
    constructor
    · intro hhash
      by_cases hpoint : Transaction.tmppoint E tx u = Transaction.tmppoint E tx' u
      · exact .inl hpoint
      · exact .inr ⟨fun htext => hpoint (signedText_inj htext), hhash⟩
    · rintro (hpoint | ⟨-, hhash⟩)
      · rw [hpoint]
      · exact hhash
  · intro E' tx' hgenerator htype' haddress hvalid hvalid' hpoint hc
    have hkey' : G1.decompress tx'.minerAddress.1 = .ok u := haddress ▸ hkey
    refine secret_of_tmppoint_eq E hgenerator (challenge_lt E htype hkey hvalid)
      (challenge_lt E' htype' hkey' hvalid') ?_ hpoint
    intro heq
    apply hc
    apply Subtype.ext
    rw [← beBytes_beValue tx.c.1, ← beBytes_beValue tx'.c.1, tx.c.2, tx'.c.2, heq]

end Signature

/-- A hash function with one value, and one generator. -/
def constantHashes : Hashes G1 :=
  { keccak256 := fun _ => ⟨beBytes 32 7, beBytes_length 32 7⟩
    hashToPoint := fun _ => somePoint }

/-- The registration of the secret one, with five for the commitment. -/
def smallRegistration : Transaction G1 :=
  { txType := .registration
    minerAddress := G1.compress somePoint
    c := ⟨beBytes 32 7, beBytes_length 32 7⟩
    s := ⟨beBytes 32 12, beBytes_length 32 12⟩ }

theorem decompress_smallRegistration :
    G1.decompress smallRegistration.minerAddress.1 = .ok somePoint := by
  change G1.decompress (G1.compress somePoint).1 = _
  rw [somePoint, G1.compress_affine, G1.decompress_compressed]

theorem somePoint_ne_zero : somePoint ≠ 0 := by
  intro h
  have hpoint : pointOf somePoint = 0 := by
    rw [h]
    exact Bn256.Group.pointEquiv.apply_symm_apply 0
  exact WeierstrassCurve.Affine.Point.some_ne_zero _ hpoint

theorem registration_signature_smallRegistration :
    Transaction.isRegistrationValid constantHashes smallRegistration = true :=
  ((registration_signature constantHashes smallRegistration somePoint rfl
    decompress_smallRegistration somePoint_ne_zero).1 1 5 (one_nsmul _).symm (by decide)).mpr
      (by decide)

end DirtybirdMiner.Block.Registrations
