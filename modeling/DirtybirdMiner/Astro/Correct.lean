import DirtybirdMiner.Astro.Model
import DirtybirdMiner.Sais.Correct
import DirtybirdMiner.V114.Correct

/-!
The mining hash is the reference hash.  The op loop of the mining path makes the
rounds of the reference loop and leaves a zero tail behind the text, and each of
the three suffix-array builders then leads to the digest of the one suffix array.
-/

namespace DirtybirdMiner.Astro.Correct

open DirtybirdMiner.Lib.Bytes
open DirtybirdMiner.Lib.Checked
open DirtybirdMiner.Lib.Buffers
open DirtybirdMiner.Lib.SuffixOrder
open DirtybirdMiner.Pow.Difficulty
open DirtybirdMiner.Sais.Model (suffixArray32)
open DirtybirdMiner.Sais.Correct
open DirtybirdMiner.V114.Model
open DirtybirdMiner.V114.Order
open DirtybirdMiner.V114.Correct
open DirtybirdMiner.Astro.Model

variable (P : Primitives)

section OpLoop

theorem dataLen_lt {tries : Nat} (step3 : Block256) (h : 4 ≤ tries) :
    dataLen tries step3 < 256 * tries := by
  have hlow : (((byteAt step3 253).toNat <<< 8 ||| (byteAt step3 254).toNat) &&& 0x3ff) ≤ 0x3ff :=
    Nat.and_le_right
  rw [dataLen]
  omega

theorem stops_of_max (st : OpState) {tries : Nat} (h : maxTries ≤ tries) : stops tries st = true := by
  rw [maxTries] at h
  rw [stops, decide_eq_true (by omega), Bool.true_or]

theorem lt_of_stops {st : OpState} {tries : Nat} (h : stops tries st = true) : 260 < tries := by
  simp only [stops, Bool.or_eq_true, Bool.and_eq_true, decide_eq_true_eq] at h
  omega

/-- Where the reference loop ends: a block of the stream for each try. -/
structure Streamed (tries : Nat) (data : List UInt8) : Prop where
  lower : 260 < tries
  upper : tries ≤ maxTries
  length : data.length = 256 * tries

theorem fullLoop_returns (fuel : Nat) {tries : Nat} (st : OpState) {data : List UInt8}
    (hfuel : tries + fuel = maxTries) (hpos : 0 < fuel) (hdata : data.length = 256 * tries) :
    Returns (fullLoop P fuel tries st data) fun r => Streamed r.1 r.2.2 := by
  induction fuel generalizing tries st data with
  | zero => omega
  | succ fuel ih =>
      have hnext : (data ++ (opRound P (tries + 1) st).1.step3.toList).length =
          256 * (tries + 1) := by
        rw [List.length_append, hdata, Vector.length_toList]
        omega
      rw [fullLoop]
      split
      · rename_i hstop
        exact Returns.pure ⟨lt_of_stops hstop, by dsimp only; omega, hnext⟩
      · rename_i hgo
        refine ih _ (by omega) ?_ hnext
        rcases Nat.eq_zero_or_pos fuel with rfl | hfuel'
        · exact absurd (stops_of_max _ (by omega)) hgo
        · exact hfuel'

/-- The next marker is written at the end of the list or over an old one. -/
def Marked (m : Marking) : Prop := m.templateIdx ≤ m.markers.length

theorem writeV114Marker_returns {markers : List Nat} {index : Nat} (firstChunk chunkCount : Nat)
    (h : index ≤ markers.length) :
    Returns (writeV114Marker markers index firstChunk chunkCount) fun r => index < r.length := by
  rw [writeV114Marker]
  split
  · rename_i hend
    refine Returns.pure ?_
    rw [List.length_append, List.length_singleton]
    omega
  · have hfits : index + [(firstChunk <<< 7 ||| chunkCount) % 2 ^ 16].length ≤ markers.length := by
      rw [List.length_singleton]
      omega
    rw [writeAt_eq_some hfits]
    refine Returns.pure ?_
    rw [copyAt_length hfits]
    omega

theorem Marked.round_returns {m : Marking} (h : Marked m) (tries : Nat) (rekeyed : Bool) :
    Returns (m.round tries rekeyed) Marked := by
  rw [Marking.round]
  split
  · refine Returns.bind (writeV114Marker_returns m.firstChunk m.chunkCount h) ?_
    intro markers hmarkers
    refine Returns.pure ?_
    rw [Marked]
    dsimp only
    split <;> omega
  · exact Returns.pure h

theorem Marked.finish_returns {m : Marking} (h : Marked m) :
    Returns m.finish fun _ => True := by
  refine Returns.bind (writeV114Marker_returns m.firstChunk m.chunkCount h) ?_
  intro markers _
  exact Returns.pure trivial

/-- The mining loop makes the rounds of the reference loop. -/
theorem prepareLoop_returns (fuel tries : Nat) (st : OpState) (data : List UInt8) {m : Marking}
    (hm : Marked m) {r : Nat × OpState × List UInt8}
    (h : fullLoop P fuel tries st data = some r) :
    Returns (prepareLoop P fuel tries st data m) fun r' =>
      (r'.1, r'.2.1, r'.2.2.1) = r ∧ Marked r'.2.2.2 := by
  induction fuel generalizing tries st data m with
  | zero => cases h
  | succ fuel ih =>
      rw [fullLoop] at h
      rw [prepareLoop]
      generalize opRound P (tries + 1) st = round at h ⊢
      obtain ⟨st', rekeyed⟩ := round
      dsimp only at h ⊢
      refine Returns.bind (hm.round_returns (tries + 1) rekeyed) ?_
      intro m' hm'
      split at h
      · rename_i hstop
        rw [if_pos hstop]
        exact Returns.pure ⟨Option.some.inj h, hm'⟩
      · rename_i hgo
        rw [if_neg hgo]
        exact ih _ _ _ hm' h

theorem zeroTail_returns {data : List UInt8} {n : Nat} (h : n ≤ data.length) :
    Returns (zeroTail data n) fun r => n + 16 ≤ r.length ∧ r.take n = data.take n ∧
      slice r n 16 = List.replicate 16 0 := by
  rw [zeroTail]
  generalize hgrown : (if data.length < n + 16 then resize data (n + 16) 0 else data) = grown
  have hlength : n + 16 ≤ grown.length ∧ grown.take n = data.take n := by
    split at hgrown
    · rw [← hgrown, resize_length]
      refine ⟨le_rfl, ?_⟩
      rw [resize, List.take_append_of_le_length (by rw [List.length_take]; omega), List.take_take,
        min_eq_left (by omega)]
    · rw [← hgrown]
      exact ⟨by omega, rfl⟩
  have hfits : n + (List.replicate 16 (0 : UInt8)).length ≤ grown.length := hlength.1
  simp only [writeAt_eq_some hfits]
  refine Returns.pure ⟨?_, ?_, ?_⟩
  · rw [copyAt_length hfits]
    exact hlength.1
  · rw [← hlength.2, take_eq_slice, slice_copyAt_before hfits (by omega), take_eq_slice]
  · exact slice_copyAt_self hfits

end OpLoop

/-- A prepared lane: the text fits and the bytes behind it, if they are there, are
zero. -/
structure Ready (data : List UInt8) (n : Nat) : Prop where
  fits : n ≤ data.length
  short : n < 2 ^ 31
  zero : n + 3 ≤ data.length → ZeroTail data n

/-- What the preparation leaves of the reference loop. -/
theorem astrobwtv3Prepare_returns (input : List UInt8) (scratch : AstroBwtScratch) :
    ∃ tries st data, fullLoop P maxTries 0 (prologue P input) [] = some (tries, st, data) ∧
      dataLen tries st.step3 ≤ data.length ∧ dataLen tries st.step3 < 2 ^ 31 ∧
      Returns (astrobwtv3Prepare P input scratch) fun r =>
        r.1 = dataLen tries st.step3 ∧ r.2.data.take r.1 = data.take r.1 ∧ Ready r.2.data r.1 := by
  obtain ⟨⟨tries, st, data⟩, hloop, hlower, hupper, hlength⟩ :=
    fullLoop_returns P maxTries (prologue P input) (Nat.zero_add _) (by decide)
      (show ([] : List UInt8).length = 256 * 0 from rfl)
  dsimp only at hlower hupper hlength
  have hlt := dataLen_lt st.step3 (show 4 ≤ tries by omega)
  rw [maxTries] at hupper
  refine ⟨tries, st, data, hloop, by omega, by omega, ?_⟩
  rw [astrobwtv3Prepare]
  have hstart : Marked { markers := [], templateIdx := 0, firstChunk := 0, chunkCount := 1 } :=
    Nat.le_refl 0
  refine Returns.bind (prepareLoop_returns P _ _ _ _ hstart hloop) ?_
  rintro ⟨tries', st', data', m⟩ ⟨heq, hm⟩
  dsimp only at heq hm ⊢
  cases heq
  refine Returns.bind hm.finish_returns ?_
  intro markers _
  refine Returns.bind (zeroTail_returns (show dataLen tries st.step3 ≤ data.length by omega)) ?_
  rintro tailed ⟨hroom, htake, hzero⟩
  refine Returns.pure ⟨rfl, htake, by dsimp only; omega, by dsimp only; omega, ?_⟩
  intro _
  have hthree := congrArg (List.take 3) hzero
  rwa [take_slice (by decide)] at hthree

section Backends

theorem flagBoundary_length (flagsLen : Nat) (flags : List UInt8) (marker : Nat) :
    (flagBoundary flagsLen flags marker).length = flags.length := by
  rw [flagBoundary]
  split
  · rw [List.length_set]
  · rfl

/-- One flag for each group and one more, whatever the markers are. -/
theorem buildV114Stage5Flags_eq {n : Nat} (markers : List Nat) (flags : List UInt8) (hpos : 0 < n)
    (hlt : n < 2 ^ 32) :
    ∃ flags', buildV114Stage5Flags markers n flags = (some (n >>> 8 + 1), flags') ∧
      flags'.length = n >>> 8 + 1 := by
  rw [buildV114Stage5Flags, if_neg (by omega), if_neg (by omega)]
  refine ⟨_, rfl, ?_⟩
  have hlength : ∀ (markers : List Nat) (flags : List UInt8),
      (markers.foldl (flagBoundary (n >>> 8 + 1)) flags).length = flags.length := by
    intro markers
    induction markers with
    | nil => intro flags; rfl
    | cons marker markers ih =>
        intro flags
        rw [List.foldl_cons, ih, flagBoundary_length]
  rw [hlength, List.length_set, List.length_replicate]

/-- The digest of the suffix array of the text. -/
def IsDigest (data : List UInt8) (n : Nat) (hash : Hash) : Prop :=
  ∃ sa, IsSuffixArray (textOf data n) sa ∧ hash = P.sha256 (castSlice sa)

theorem IsDigest.unique {data data' : List UInt8} {n : Nat} {hash hash' : Hash}
    (h : IsDigest P data n hash) (h' : IsDigest P data' n hash')
    (htext : data.take n = data'.take n) : hash = hash' := by
  obtain ⟨sa, hsa, rfl⟩ := h
  obtain ⟨sa', hsa', rfl⟩ := h'
  rw [textOf, ← htext] at hsa'
  rw [hsa.unique hsa']

/-- Where the descriptor backend does not refuse, it leaves the suffix array. -/
theorem suffixArrayV114Into_returns {data : List UInt8} {n : Nat} (markers : List Nat)
    (s : BackendState) (h : Ready data n) :
    Returns (suffixArrayV114Into data n markers s) fun r => r.1 = true →
      n ≤ r.2.sa.length ∧ IsSuffixArray (textOf data n) (r.2.sa.take n) := by
  have hshort := h.short
  rw [suffixArrayV114Into]
  split
  · rename_i hzero
    subst hzero
    refine Returns.pure fun _ => ⟨Nat.zero_le _, ?_⟩
    exact ⟨List.Perm.refl _, List.Pairwise.nil⟩
  · rename_i hpos
    rw [if_neg (by omega)]
    split
    · exact Returns.pure (by simp)
    · rename_i hlen
      obtain ⟨flags, hflags, hlength⟩ := buildV114Stage5Flags_eq markers s.flags
        (show 0 < n by omega) (show n < 2 ^ 32 by omega)
      rw [hflags]
      dsimp only
      generalize hgrown : (if s.sa.length < n + materializedSaTailWords then
        resize s.sa (n + materializedSaTailWords) 0 else s.sa) = sa
      have hroom : n + materializedSaTailWords ≤ sa.length := by
        split at hgrown
        · rw [← hgrown, resize_length]
        · rw [← hgrown]
          omega
      have hfront : (sa.take (n + materializedSaTailWords)).length = n + 7 := by
        rw [List.length_take, min_eq_left hroom, materializedSaTailWords]
      rw [readAt_eq_some (by omega), ← take_eq_slice, List.take_of_length_le hlength.le]
      simp only [Option.bind_eq_bind, Option.bind_some]
      by_cases hrefused : Refused data n flags ∨
          (sa.take (n + materializedSaTailWords)).length < n + 7
      · obtain ⟨fused, hrun⟩ := saBuildCompactFused_refuses s.fused hrefused
        rw [hrun]
        exact Returns.pure (by simp)
      · refine Returns.bind (saBuildCompactFused_accepts s.fused hrefused) ?_
        rintro ⟨ok, front, fused⟩ ⟨-, hsize, -, -, hsorted⟩
        dsimp only at hsize hsorted
        refine Returns.pure fun _ => ⟨?_, ?_⟩
        · dsimp only
          rw [List.length_append, hsize, hfront]
          omega
        · dsimp only
          rw [List.take_append_of_le_length (by rw [hsize, hfront]; omega)]
          exact hsorted (h.zero (by omega))

/-- The streaming backend hashes the suffix array, or refuses. -/
theorem hashV114FusedInto_returns (mode : Mode) {data : List UInt8} {n : Nat} (markers : List Nat)
    (s : BackendState) (h : Ready data n) :
    Returns (hashV114FusedInto P mode data n markers s) fun r => ∀ hash, r.1 = some hash →
      IsDigest P data n hash := by
  have hshort := h.short
  rw [hashV114FusedInto]
  split
  · exact Returns.pure (by simp)
  · split
    · exact Returns.pure (by simp)
    · rw [if_neg (by omega)]
      split
      · exact Returns.pure (by simp)
      · rename_i hpos hlen
        obtain ⟨flags, hflags, hlength⟩ := buildV114Stage5Flags_eq markers s.flags
          (show 0 < n by omega) (show n < 2 ^ 32 by omega)
        rw [hflags]
        dsimp only
        rw [readAt_eq_some (by omega), ← take_eq_slice, List.take_of_length_le hlength.le]
        simp only [Option.bind_eq_bind, Option.bind_some]
        by_cases hrefused : Refused data n flags
        · obtain ⟨fused, hrun⟩ := hashCompactFused_refuses P.sha256 mode.count1Singletons s.fused
            hrefused
          rw [hrun]
          exact Returns.pure (by simp)
        · refine Returns.bind (hashCompactFused_accepts P.sha256 mode.count1Singletons s.fused
            hrefused) ?_
          rintro ⟨result, fused⟩ ⟨sa, hresult, hsorted⟩
          dsimp only at hresult
          refine Returns.pure ?_
          intro hash hhash
          rw [hresult] at hhash
          exact ⟨sa, hsorted (h.zero (by omega)), (Option.some.inj hhash).symm⟩

/-- SA-IS, and its entries as words. -/
theorem suffixArray32_words {data : List UInt8} {n : Nat} (hfits : n ≤ data.length)
    (hshort : n < 2 ^ 31) :
    Returns (suffixArray32 (data.take n).toArray) fun sa =>
      IsSuffixArray (textOf data n) (saWords sa) := by
  have hsize : (data.take n).toArray.size = n := by simp [hfits]
  refine Returns.mono (suffixArray32_returns (by rw [hsize]; exact hshort)) ?_
  rintro sa ⟨order, hsa, horder⟩
  rw [byteValues, ← textOf] at horder
  have hwords : saWords sa = order := by
    rw [saWords, hsa, List.map_map]
    conv_rhs => rw [← List.map_id order]
    apply List.map_congr_left
    intro p hp
    have hlt := List.mem_range.mp (horder.perm.mem_iff.mp hp)
    rw [textOf_length hfits] at hlt
    simp only [Function.comp_apply, id_eq]
    omega
  rwa [hwords]

theorem digestLane_returns {data : List UInt8} {n : Nat} {used : Bool} {sa : List Nat}
    (h : Ready data n)
    (hused : used = true → n ≤ sa.length ∧ IsSuffixArray (textOf data n) (sa.take n)) :
    Returns (digestLane P data n used sa) (IsDigest P data n) := by
  rw [digestLane]
  split
  · rename_i huse
    obtain ⟨hlen, hsorted⟩ := hused huse
    rw [readAt_eq_some (by omega), ← take_eq_slice]
    exact Returns.pure ⟨_, hsorted, rfl⟩
  · have hfits := h.fits
    rw [readAt_eq_some (by omega), ← take_eq_slice]
    simp only [Option.bind_eq_bind, Option.bind_some]
    refine Returns.bind (suffixArray32_words h.fits h.short) ?_
    intro sa hsorted
    exact Returns.pure ⟨_, hsorted, rfl⟩

theorem hashMaterialized_returns {data : List UInt8} {n : Nat} (markers : List Nat)
    (s : BackendState) (h : Ready data n) :
    Returns (hashMaterialized P data n markers s) fun r => IsDigest P data n r.1 := by
  refine Returns.bind (suffixArrayV114Into_returns markers s h) ?_
  rintro ⟨used, s'⟩ hused
  refine Returns.bind (digestLane_returns P h hused) ?_
  intro hash hhash
  exact Returns.pure hhash

theorem finishHash_returns (mode : Mode) {data : List UInt8} {n : Nat} (markers : List Nat)
    (s : BackendState) (h : Ready data n) :
    Returns (finishHash P mode data n markers s) fun r => IsDigest P data n r.1 := by
  rw [finishHash]
  split
  · exact hashMaterialized_returns P markers s h
  · refine Returns.bind (hashV114FusedInto_returns P mode markers s h) ?_
    rintro ⟨fusedHash, s'⟩ hdigest
    cases fusedHash with
    | some hash => exact Returns.pure (hdigest hash rfl)
    | none => exact hashMaterialized_returns P markers s' h

/-- The two lanes, whichever of the builds refuse. -/
theorem finishHashX2_returns {lenA lenB : Nat} {sa sb : AstroBwtScratch} (fused : FusedScratch)
    (ha : Ready sa.data lenA) (hb : Ready sb.data lenB) :
    Returns (finishHashX2 P lenA lenB sa sb fused) fun r =>
      IsDigest P sa.data lenA r.1.1 ∧ IsDigest P sb.data lenB r.1.2 := by
  rw [finishHashX2]
  refine Returns.bind (suffixArrayV114Into_returns sa.v114Markers (sa.backend fused) ha) ?_
  rintro ⟨usedA, s⟩ husedA
  refine Returns.bind (suffixArrayV114Into_returns sb.v114Markers (sb.backend s.fused) hb) ?_
  rintro ⟨usedB, s'⟩ husedB
  dsimp only at husedA husedB ⊢
  split
  · rename_i hboth
    rw [Bool.and_eq_true] at hboth
    obtain ⟨hlenA, hsortedA⟩ := husedA hboth.1
    obtain ⟨hlenB, hsortedB⟩ := husedB hboth.2
    rw [readAt_eq_some (show 0 + lenA ≤ (sa.put s).sa.length by rw [Nat.zero_add]; exact hlenA),
      readAt_eq_some (show 0 + lenB ≤ (sb.put s').sa.length by rw [Nat.zero_add]; exact hlenB),
      ← take_eq_slice, ← take_eq_slice]
    simp only [Option.bind_eq_bind, Option.bind_some, P.sha256X2_eq]
    exact Returns.pure ⟨⟨_, hsortedA, rfl⟩, _, hsortedB, rfl⟩
  · refine Returns.bind (digestLane_returns P ha husedA) ?_
    intro hashA hhashA
    refine Returns.bind (digestLane_returns P hb husedB) ?_
    intro hashB hhashB
    exact Returns.pure ⟨hhashA, hhashB⟩

end Backends

section EntryPoints

theorem astrobwtv3Full_returns {input : List UInt8} {tries : Nat} {st : OpState}
    {data : List UInt8} (hloop : fullLoop P maxTries 0 (prologue P input) [] = some (tries, st, data))
    (hfits : dataLen tries st.step3 ≤ data.length) (hshort : dataLen tries st.step3 < 2 ^ 31) :
    Returns (astrobwtv3Full P input) fun r => IsDigest P data (dataLen tries st.step3) r.1 := by
  rw [astrobwtv3Full, hloop]
  simp only [Option.bind_eq_bind, Option.bind_some,
    readAt_eq_some (show 0 + dataLen tries st.step3 ≤ data.length by omega), ← take_eq_slice]
  refine Returns.bind (suffixArray32_words hfits hshort) ?_
  intro sa hsorted
  exact Returns.pure ⟨_, hsorted, rfl⟩

/-- The reference returns, and a lane prepared for its input is ready for the
backends and holds its text. -/
theorem prepare_full (input : List UInt8) (scratch : AstroBwtScratch) :
    ∃ hash debug, astrobwtv3Full P input = some (hash, debug) ∧
      Returns (astrobwtv3Prepare P input scratch) fun r => Ready r.2.data r.1 ∧
        ∀ hash', IsDigest P r.2.data r.1 hash' → hash' = hash := by
  obtain ⟨tries, st, data, hloop, hfits, hshort, hprepare⟩ :=
    astrobwtv3Prepare_returns P input scratch
  obtain ⟨⟨hash, debug⟩, hfull, hdigest⟩ := astrobwtv3Full_returns P hloop hfits hshort
  refine ⟨hash, debug, hfull, hprepare.mono ?_⟩
  rintro ⟨len, scratch'⟩ ⟨hlen, htext, hready⟩
  dsimp only at hlen htext hready ⊢
  subst hlen
  exact ⟨hready, fun hash' hhash' => hhash'.unique P hdigest htext⟩

theorem astrobwtv3WithScratch_returns (mode : Mode) {input : List UInt8} {hash : Hash}
    {debug : Debug} (hfull : astrobwtv3Full P input = some (hash, debug))
    (scratch : AstroBwtScratch) (fused : FusedScratch) :
    Returns (astrobwtv3WithScratch P mode input scratch fused) fun r => r.1 = hash := by
  obtain ⟨hash', debug', hfull', hprepare⟩ := prepare_full P input scratch
  obtain ⟨rfl, -⟩ := Prod.mk.inj (Option.some.inj (hfull.symm.trans hfull'))
  refine Returns.bind hprepare ?_
  rintro ⟨len, scratch'⟩ ⟨hready, hunique⟩
  refine Returns.bind (finishHash_returns P mode _ _ hready) ?_
  rintro ⟨hash', s⟩ hdigest
  exact Returns.pure (hunique hash' hdigest)

theorem astrobwtv3_returns (mode : Mode) {input : List UInt8} {hash : Hash} {debug : Debug}
    (hfull : astrobwtv3Full P input = some (hash, debug)) (fused : FusedScratch) :
    Returns (astrobwtv3 P mode input fused) fun r => r.1 = hash := by
  refine Returns.bind (astrobwtv3WithScratch_returns P mode hfull AstroBwtScratch.new fused) ?_
  rintro ⟨hash', scratch', fused'⟩ heq
  exact Returns.pure heq

theorem astrobwtv3X2_returns {inputA inputB : List UInt8} {hashA hashB : Hash}
    {debugA debugB : Debug} (hfullA : astrobwtv3Full P inputA = some (hashA, debugA))
    (hfullB : astrobwtv3Full P inputB = some (hashB, debugB)) (sa sb : AstroBwtScratch)
    (fused : FusedScratch) :
    Returns (astrobwtv3X2 P inputA inputB sa sb fused) fun r => r.1 = (hashA, hashB) := by
  obtain ⟨hashA', debugA', hfullA', hprepareA⟩ := prepare_full P inputA sa
  obtain ⟨hashB', debugB', hfullB', hprepareB⟩ := prepare_full P inputB sb
  obtain ⟨rfl, -⟩ := Prod.mk.inj (Option.some.inj (hfullA.symm.trans hfullA'))
  obtain ⟨rfl, -⟩ := Prod.mk.inj (Option.some.inj (hfullB.symm.trans hfullB'))
  refine Returns.bind hprepareA ?_
  rintro ⟨lenA, sa'⟩ ⟨hreadyA, huniqueA⟩
  refine Returns.bind hprepareB ?_
  rintro ⟨lenB, sb'⟩ ⟨hreadyB, huniqueB⟩
  refine (finishHashX2_returns P fused hreadyA hreadyB).mono ?_
  rintro r ⟨hdigestA, hdigestB⟩
  exact Prod.ext (huniqueA _ hdigestA) (huniqueB _ hdigestB)

/-- On every input, from every scratch and in every mode, the mining hash is the
reference hash, alone and in two lanes.  The two-lane digest is right also where
one lane or both were refused. -/
theorem mining_hash_eq_reference :
    (∀ (mode : Mode) (input : List UInt8) (scratch : AstroBwtScratch) (fused : FusedScratch),
      ∃ hash debug scratch' fused', astrobwtv3Full P input = some (hash, debug) ∧
        astrobwtv3WithScratch P mode input scratch fused = some (hash, scratch', fused')) ∧
    (∀ (inputA inputB : List UInt8) (sa sb : AstroBwtScratch) (fused : FusedScratch),
      ∃ hashA hashB debugA debugB sa' sb' fused',
        astrobwtv3Full P inputA = some (hashA, debugA) ∧
        astrobwtv3Full P inputB = some (hashB, debugB) ∧
        astrobwtv3X2 P inputA inputB sa sb fused = some ((hashA, hashB), sa', sb', fused')) ∧
    ∀ (lenA lenB : Nat) (sa sb : AstroBwtScratch) (fused : FusedScratch),
      Ready sa.data lenA → Ready sb.data lenB →
      ∃ hashA hashB sa' sb' fused',
        finishHashX2 P lenA lenB sa sb fused = some ((hashA, hashB), sa', sb', fused') ∧
        IsDigest P sa.data lenA hashA ∧ IsDigest P sb.data lenB hashB := by
  refine ⟨?_, ?_, ?_⟩
  · intro mode input scratch fused
    obtain ⟨hash, debug, hfull, -⟩ := prepare_full P input scratch
    obtain ⟨⟨hash', scratch', fused'⟩, hrun, rfl⟩ :=
      astrobwtv3WithScratch_returns P mode hfull scratch fused
    exact ⟨hash', debug, scratch', fused', hfull, hrun⟩
  · intro inputA inputB sa sb fused
    obtain ⟨hashA, debugA, hfullA, -⟩ := prepare_full P inputA sa
    obtain ⟨hashB, debugB, hfullB, -⟩ := prepare_full P inputB sb
    obtain ⟨⟨hashes, sa', sb', fused'⟩, hrun, hhashes⟩ :=
      astrobwtv3X2_returns P hfullA hfullB sa sb fused
    dsimp only at hhashes
    subst hhashes
    exact ⟨hashA, hashB, debugA, debugB, sa', sb', fused', hfullA, hfullB, hrun⟩
  · intro lenA lenB sa sb fused hreadyA hreadyB
    obtain ⟨⟨⟨hashA, hashB⟩, sa', sb', fused'⟩, hrun, hdigestA, hdigestB⟩ :=
      finishHashX2_returns P fused hreadyA hreadyB
    exact ⟨hashA, hashB, sa', sb', fused', hrun, hdigestA, hdigestB⟩

end EntryPoints

end DirtybirdMiner.Astro.Correct
