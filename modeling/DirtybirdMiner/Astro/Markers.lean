import DirtybirdMiner.Astro.Rounds

/-!
The group markers of the op loop against the templates of the stream.  The loop records
runs of chunks between two rekeys, and the flags are to be set exactly where a run begins.
The first run is one chunk too long unless the first try rekeys, and a marker has seven
bits for the length of a run.
-/

namespace DirtybirdMiner.Astro.Markers

open DirtybirdMiner.Lib.Bytes
open DirtybirdMiner.Lib.Checked
open DirtybirdMiner.Lib.Buffers
open DirtybirdMiner.Astro.Model
open DirtybirdMiner.Astro.Correct
open DirtybirdMiner.Astro.Rounds

section Recording

/-- The bookkeeping of the rounds that make these decisions, behind `tries` rounds. -/
def Marking.rounds (m : Marking) (tries : Nat) : List Bool → Option Marking
  | [] => some m
  | rekeyed :: decisions => do
      let m ← m.round (tries + 1) rekeyed
      Marking.rounds m (tries + 1) decisions

/-- The markers of a loop that makes these decisions, one for each try. -/
def recorded (decisions : List Bool) : Option (List Nat) := do
  (← Marking.rounds Marking.start 0 decisions).finish

/-- The runs behind chunk `t`: each rekey ends the current one. -/
def runs (first count t : Nat) : List Bool → List (Nat × Nat)
  | [] => [(first, count)]
  | true :: decisions => (first, count) :: runs t 1 (t + 1) decisions
  | false :: decisions => runs first (count + 1) (t + 1) decisions

/-- `((first_chunk << 7) | chunk_count) as u16`. -/
def pack (run : Nat × Nat) : Nat := (run.1 <<< 7 ||| run.2) % 2 ^ 16

/-- Behind the first try the slot is the end of the list, or the last marker in it is
written over. -/
structure Slot (closed : List Nat) (m : Marking) : Prop where
  take : m.markers.take m.templateIdx = closed
  slot : m.templateIdx = closed.length
  last : m.markers.length ≤ m.templateIdx + 1

theorem Slot.write {closed : List Nat} {m : Marking} (h : Slot closed m) (first count : Nat) :
    writeV114Marker m.markers m.templateIdx first count =
      some (closed ++ [pack (first, count)]) := by
  have hlength := congrArg List.length h.take
  have hslot := h.slot
  have hlast := h.last
  rw [List.length_take] at hlength
  rw [writeV114Marker]
  split
  · rename_i hend
    rw [← h.take, hend, List.take_length]
    rfl
  · rename_i hold
    have hdrop : m.markers.drop (m.templateIdx + 1) = [] := List.drop_eq_nil_of_le hlast
    rw [writeAt, if_pos (by rw [List.length_singleton]; omega), copyAt, h.take,
      List.length_singleton, hdrop, List.append_nil]
    rfl

theorem Slot.rounds {closed : List Nat} {m : Marking} (h : Slot closed m) {t : Nat} (ht : 0 < t)
    (decisions : List Bool) : ∃ m', Marking.rounds m t decisions = some m' ∧
      m'.finish = some (closed ++ (runs m.firstChunk m.chunkCount t decisions).map pack) := by
  induction decisions generalizing closed m t with
  | nil =>
      refine ⟨m, rfl, ?_⟩
      have hall : (closed ++ [pack (m.firstChunk, m.chunkCount)]).length ≤ m.templateIdx + 1 := by
        rw [List.length_append, List.length_singleton, h.slot]
      rw [Marking.finish, h.write]
      exact congrArg some (List.take_of_length_le hall)
  | cons rekeyed decisions ih =>
      rw [Marking.rounds, Marking.round]
      cases rekeyed with
      | true =>
          rw [if_pos rfl, h.write]
          have hslot := h.slot
          have hnext : Slot (closed ++ [pack (m.firstChunk, m.chunkCount)])
              { markers := closed ++ [pack (m.firstChunk, m.chunkCount)]
                templateIdx := m.templateIdx + 1
                firstChunk := t
                chunkCount := 1 } := by
            refine ⟨?_, ?_, ?_⟩
            · rw [hslot]
              exact List.take_of_length_le (by simp)
            · rw [List.length_append, List.length_singleton, hslot]
            · dsimp only
              rw [List.length_append, List.length_singleton, hslot]
              omega
          obtain ⟨m', hm', hfinish⟩ := ih hnext (Nat.succ_pos t)
          refine ⟨m', ?_, ?_⟩
          · simp only [Option.bind_eq_bind, Option.bind_some, Nat.add_sub_cancel,
              if_pos (show t + 1 > 1 by omega)]
            exact hm'
          · rw [hfinish, runs, List.map_cons, List.append_assoc]
            rfl
      | false =>
          exact ih (m := { m with chunkCount := m.chunkCount + 1 }) ⟨h.take, h.slot, h.last⟩
            (Nat.succ_pos t)

/-- The markers are the runs; the first one has a chunk too many unless the first try
rekeys. -/
theorem recorded_eq (rekeyed : Bool) (decisions : List Bool) :
    recorded (rekeyed :: decisions) =
      some ((runs 0 (if rekeyed then 1 else 2) 1 decisions).map pack) := by
  cases rekeyed with
  | true =>
      have hslot : Slot []
          { markers := [pack (0, 1)], templateIdx := 0, firstChunk := 0, chunkCount := 1 } :=
        ⟨rfl, rfl, le_rfl⟩
      obtain ⟨m', hm', hfinish⟩ := hslot.rounds Nat.one_pos decisions
      have hrounds : Marking.rounds Marking.start 0 (true :: decisions) = some m' := hm'
      rw [recorded, hrounds]
      exact hfinish
  | false =>
      have hslot : Slot []
          { markers := [], templateIdx := 0, firstChunk := 0, chunkCount := 2 } :=
        ⟨rfl, rfl, Nat.zero_le _⟩
      obtain ⟨m', hm', hfinish⟩ := hslot.rounds Nat.one_pos decisions
      have hrounds : Marking.rounds Marking.start 0 (false :: decisions) = some m' := hm'
      rw [recorded, hrounds]
      exact hfinish

end Recording

section Loop

variable (P : Primitives)

/-- Whether the tries of a run rekey, behind `tries` tries. -/
def decisions : Nat → Nat → OpState → List Bool
  | 0, _, _ => []
  | fuel + 1, tries, st =>
      let (st, rekeyed) := opRound P (tries + 1) st
      rekeyed :: if stops (tries + 1) st then [] else decisions fuel (tries + 1) st

/-- The loop keeps its books as the decisions say. -/
theorem prepareLoop_rounds (fuel tries : Nat) (st : OpState) (data : List UInt8) (m : Marking)
    {r : Nat × OpState × List UInt8 × Marking} (hr : prepareLoop P fuel tries st data m = some r) :
    Marking.rounds m tries (decisions P fuel tries st) = some r.2.2.2 ∧
      tries + (decisions P fuel tries st).length = r.1 := by
  induction fuel generalizing tries st data m with
  | zero => cases hr
  | succ fuel ih =>
      rw [prepareLoop] at hr
      rw [decisions]
      generalize opRound P (tries + 1) st = round at hr ⊢
      obtain ⟨st', rekeyed⟩ := round
      obtain ⟨m', hm', hr⟩ := Option.bind_eq_some_iff.mp hr
      dsimp only at hr hm' ⊢
      rw [Marking.rounds, hm']
      split at hr
      · rename_i hstop
        cases hr
        rw [if_pos hstop]
        exact ⟨rfl, rfl⟩
      · rename_i hgo
        obtain ⟨hrounds, hcount⟩ := ih _ _ _ _ hr
        rw [if_neg hgo, List.length_cons]
        exact ⟨hrounds, by omega⟩

/-- The markers that a preparation leaves are those of the decisions of its loop. -/
theorem astrobwtv3Prepare_recorded (input : List UInt8) (scratch : AstroBwtScratch) {len : Nat}
    {scratch' : AstroBwtScratch} (h : astrobwtv3Prepare P input scratch = some (len, scratch')) :
    ∃ st, len = dataLen (decisions P maxTries 0 (prologue P input)).length st ∧
      recorded (decisions P maxTries 0 (prologue P input)) = some scratch'.v114Markers := by
  rw [astrobwtv3Prepare] at h
  obtain ⟨⟨tries, st, data, m⟩, hloop, h⟩ := Option.bind_eq_some_iff.mp h
  obtain ⟨markers, hmarkers, h⟩ := Option.bind_eq_some_iff.mp h
  obtain ⟨tailed, htailed, h⟩ := Option.bind_eq_some_iff.mp h
  obtain ⟨hrounds, hcount⟩ := prepareLoop_rounds P _ _ _ _ _ hloop
  cases h
  refine ⟨st.step3, ?_, ?_⟩
  · rw [Nat.zero_add] at hcount
    rw [hcount]
  · change (Marking.rounds Marking.start 0 _).bind _ = _
    rw [show Marking.rounds Marking.start 0 _ = some m from hrounds]
    exact hmarkers

end Loop

section Decoding

/-- The group that the marker of a run flags, where its seven bits are not zero. -/
def boundary (run : Nat × Nat) : Nat := (run.1 ||| run.2 / 128) + run.2 % 128

theorem pack_decodes {r : Nat × Nat} (hfirst : r.1 < 512) (hcount : r.2 < 512) :
    pack r >>> 7 = (r.1 ||| r.2 / 128) ∧ pack r &&& 0x7f = r.2 % 128 := by
  have hwhole : pack r = r.1 <<< 7 ||| r.2 := by
    apply Nat.mod_eq_of_lt
    apply Nat.or_lt_two_pow
    · rw [Nat.shiftLeft_eq]
      omega
    · omega
  have hlow : r.1 <<< 7 % 2 ^ 7 = 0 := by
    rw [Nat.shiftLeft_eq]
    omega
  constructor
  · rw [hwhole, Nat.shiftRight_or_distrib, Nat.shiftLeft_shiftRight, Nat.shiftRight_eq_div_pow]
  · rw [hwhole, Nat.and_two_pow_sub_one_eq_mod _ 7, Nat.or_mod_two_pow, hlow, Nat.zero_or]

theorem or_le_add {a b : Nat} (hb : b < 4) : (a ||| b) ≤ a + b := by
  have hlow : ∀ r < 4, ∀ b < 4, (r ||| b) ≤ r + b := by decide
  have hmod : a % 4 < 2 ^ 2 := Nat.mod_lt a (by decide)
  have hor : (a % 4 ||| b) < 2 ^ 2 := Nat.or_lt_two_pow hmod hb
  have hsplit : a = 2 ^ 2 * (a / 4) ||| a % 4 := by
    rw [← Nat.two_pow_add_eq_or_of_lt hmod]
    omega
  calc (a ||| b) = 2 ^ 2 * (a / 4) ||| (a % 4 ||| b) := by
        rw [← Nat.or_assoc, ← hsplit]
    _ = 2 ^ 2 * (a / 4) + (a % 4 ||| b) := (Nat.two_pow_add_eq_or_of_lt hor _).symm
    _ ≤ 2 ^ 2 * (a / 4) + (a % 4 + b) := Nat.add_le_add_left (hlow _ hmod _ hb) _
    _ = a + b := by omega

theorem boundary_short {r : Nat × Nat} (h : r.2 < 128) : boundary r = r.1 + r.2 := by
  rw [boundary, Nat.div_eq_of_lt h, Nat.or_zero, Nat.mod_eq_of_lt h]

/-- The marker of a run flags a group of the run. -/
theorem lt_boundary {r : Nat × Nat} (h : r.2 % 128 ≠ 0) : r.1 < boundary r := by
  have hle := Nat.left_le_or (n := r.1) (m := r.2 / 128)
  rw [boundary]
  omega

/-- The marker of a long run flags a group far before its end. -/
theorem boundary_long {r : Nat × Nat} (hcount : r.2 < 512) (h : 128 ≤ r.2) :
    boundary r + 127 ≤ r.1 + r.2 := by
  have hle := or_le_add (a := r.1) (b := r.2 / 128) (by omega)
  rw [boundary]
  omega

theorem boundary_le {r : Nat × Nat} (hcount : r.2 < 512) : boundary r ≤ r.1 + r.2 := by
  rcases Nat.lt_or_ge r.2 128 with hlt | hge
  · exact (boundary_short hlt).le
  · have hlong := boundary_long hcount hge
    omega

theorem flagBoundary_get {flagsLen marker g : Nat} {flags : List UInt8}
    (hlength : flags.length = flagsLen) (hg : g < flagsLen) :
    (flagBoundary flagsLen flags marker)[g]? = some 1 ↔
      flags[g]? = some 1 ∨ (marker &&& 0x7f ≠ 0 ∧ marker >>> 7 + (marker &&& 0x7f) = g) := by
  rw [flagBoundary]
  split
  · rename_i hset
    rw [List.getElem?_set]
    split
    · rename_i heq
      rw [if_pos (by omega)]
      exact ⟨fun _ => .inr ⟨hset.1, heq⟩, fun _ => rfl⟩
    · rename_i hne
      exact ⟨.inl, fun h => h.resolve_right fun h => hne h.2⟩
  · rename_i hunset
    refine ⟨.inl, fun h => h.resolve_right fun h => hunset ⟨h.1, ?_, ?_⟩⟩
    · omega
    · omega

theorem foldl_flagBoundary_get {flagsLen g : Nat} (hg : g < flagsLen) (markers : List Nat)
    {flags : List UInt8} (hlength : flags.length = flagsLen) :
    (markers.foldl (flagBoundary flagsLen) flags)[g]? = some 1 ↔ flags[g]? = some 1 ∨
      ∃ marker ∈ markers, marker &&& 0x7f ≠ 0 ∧ marker >>> 7 + (marker &&& 0x7f) = g := by
  induction markers generalizing flags with
  | nil => simp
  | cons marker markers ih =>
      rw [List.foldl_cons, ih (by rw [flagBoundary_length, hlength]), flagBoundary_get hlength hg,
        or_assoc, List.exists_mem_cons_iff]

end Decoding

section Runs

/-- A run of the stream: a rekeyed chunk and the chunks behind it up to the next one. -/
structure RunOf (decisions : List Bool) (a b : Nat) : Prop where
  nonempty : a < b
  begins : decisions[a]? = some true
  ends : b = decisions.length ∨ decisions[b]? = some true
  between : ∀ g, a < g → g < b → decisions[g]? = some false

/-- Runs do not overlap. -/
theorem RunOf.disjoint {decisions : List Bool} {a b a' b' : Nat} (h : RunOf decisions a b)
    (h' : RunOf decisions a' b') (hlt : a < a') : b ≤ a' := by
  by_contra hover
  have hfalse := h.between a' hlt (by omega)
  rw [h'.begins] at hfalse
  cases hfalse

theorem RunOf.le_length {decisions : List Bool} {a b : Nat} (h : RunOf decisions a b) :
    b ≤ decisions.length := by
  rcases h.ends with hend | hnext
  · exact hend.le
  · exact (List.getElem?_eq_some_iff.mp hnext).1.le

/-- A run that begins inside another one is that run. -/
theorem RunOf.eq_of_begins {decisions : List Bool} {a b a' b' : Nat} (h : RunOf decisions a b)
    (h' : RunOf decisions a' b') (hle : a ≤ a') (hlt : a' < b) : a' = a ∧ b' = b := by
  have ha : a' = a := by
    by_contra hne
    have hafter := h.disjoint h' (by omega)
    omega
  subst ha
  refine ⟨rfl, ?_⟩
  rcases Nat.lt_trichotomy b' b with hshort | heq | hlong
  · have hfalse := h.between b' h'.nonempty hshort
    have hlength := h.le_length
    rcases h'.ends with hend | hnext
    · omega
    · rw [hnext] at hfalse
      cases hfalse
  · exact heq
  · have hfalse := h'.between b h.nonempty hlong
    have hlength := h'.le_length
    rcases h.ends with hend | hnext
    · omega
    · rw [hnext] at hfalse
      cases hfalse

/-- The recorded runs are those of the stream. -/
theorem mem_runs {whole rest : List Bool} {first count t : Nat} (hrest : whole.drop t = rest)
    (ht : t ≤ whole.length) (hcount : first + count = t) (hpos : 0 < count)
    (hbegins : whole[first]? = some true)
    (hbetween : ∀ g, first < g → g < t → whole[g]? = some false) (s c : Nat) :
    (s, c) ∈ runs first count t rest ↔ first ≤ s ∧ RunOf whole s (s + c) := by
  induction rest generalizing first count t with
  | nil =>
      have hend : t = whole.length := le_antisymm ht (List.drop_eq_nil_iff.mp hrest)
      have hrun : RunOf whole first t := ⟨by omega, hbegins, .inl hend, hbetween⟩
      rw [runs, List.mem_singleton, Prod.mk.injEq]
      constructor
      · rintro ⟨rfl, rfl⟩
        exact ⟨le_rfl, hcount ▸ hrun⟩
      · rintro ⟨hle, hs⟩
        have hlength := hs.le_length
        obtain ⟨hfirst, hlast⟩ := hrun.eq_of_begins hs hle (by have := hs.nonempty; omega)
        omega
  | cons rekeyed rest ih =>
      have hhere : whole[t]? = some rekeyed := by
        have hcell := congrArg (fun l => l[0]?) hrest
        simpa using hcell
      have hnext : whole.drop (t + 1) = rest := by
        rw [← List.drop_drop, hrest]
        rfl
      have hlt : t < whole.length := (List.getElem?_eq_some_iff.mp hhere).1
      cases rekeyed with
      | true =>
          have hrun : RunOf whole first t := ⟨by omega, hbegins, .inr hhere, hbetween⟩
          rw [runs, List.mem_cons, ih hnext hlt rfl Nat.one_pos hhere (fun g _ _ => by omega),
            Prod.mk.injEq]
          constructor
          · rintro (⟨rfl, rfl⟩ | ⟨hle, hs⟩)
            · exact ⟨le_rfl, hcount ▸ hrun⟩
            · exact ⟨by omega, hs⟩
          · rintro ⟨hle, hs⟩
            rcases Nat.lt_or_ge s t with hbefore | hafter
            · obtain ⟨hfirst, hlast⟩ := hrun.eq_of_begins hs hle hbefore
              exact .inl ⟨hfirst, by omega⟩
            · exact .inr ⟨hafter, hs⟩
      | false =>
          refine ih hnext hlt (by omega) (Nat.succ_pos count) hbegins ?_
          intro g hg hgt
          rcases Nat.lt_or_ge g t with hbefore | hafter
          · exact hbetween g hg hbefore
          · rw [show g = t by omega, hhere]

/-- Every rekeyed chunk behind the first ends a run. -/
theorem exists_run {decisions : List Bool} (h0 : decisions[0]? = some true) {g : Nat} (hg : 0 < g)
    (hrekeyed : decisions[g]? = some true) : ∃ a, RunOf decisions a g := by
  have hlength := (List.getElem?_eq_some_iff.mp hrekeyed).1
  have hdown : ∀ k < g, (∀ j, k < j → j < g → decisions[j]? = some false) →
      ∃ a, RunOf decisions a g := by
    intro k
    induction k with
    | zero => exact fun hk hfalse => ⟨0, hk, h0, .inr hrekeyed, hfalse⟩
    | succ k ih =>
        intro hk hfalse
        rcases hhere : decisions.get ⟨k + 1, by omega⟩ with _ | _
        · apply ih (by omega)
          intro j hj hjg
          rcases Nat.lt_or_ge (k + 1) j with hafter | hat
          · exact hfalse j hafter hjg
          · rw [show j = k + 1 by omega, List.getElem?_eq_getElem (by omega), ← hhere]
            rfl
        · refine ⟨k + 1, hk, ?_, .inr hrekeyed, hfalse⟩
          rw [List.getElem?_eq_getElem (by omega), ← hhere]
          rfl
  exact hdown (g - 1) (by omega) fun j _ _ => by omega

theorem runs_bounds {first count t : Nat} {rest : List Bool} (hle : first ≤ t) {run : Nat × Nat}
    (h : run ∈ runs first count t rest) :
    first ≤ run.1 ∧ run.1 ≤ t + rest.length ∧ run.2 ≤ count + rest.length := by
  induction rest generalizing first count t with
  | nil =>
      rw [runs, List.mem_singleton] at h
      subst h
      exact ⟨le_rfl, by simpa using hle, le_rfl⟩
  | cons rekeyed rest ih =>
      rw [List.length_cons]
      cases rekeyed with
      | true =>
          rcases List.mem_cons.mp h with rfl | h
          · exact ⟨le_rfl, by dsimp only; omega, by dsimp only; omega⟩
          · obtain ⟨hlow, hhigh, hcount⟩ := ih (Nat.le_succ t) h
            exact ⟨by omega, by omega, by omega⟩
      | false =>
          obtain ⟨hlow, hhigh, hcount⟩ := ih (Nat.le_succ_of_le hle) h
          exact ⟨hlow, by omega, by omega⟩

theorem runs_length (first count t : Nat) (rest : List Bool) :
    (runs first count t rest).length ≤ rest.length + 1 := by
  induction rest generalizing first count t with
  | nil => exact le_rfl
  | cons rekeyed rest ih =>
      cases rekeyed with
      | true => exact Nat.succ_le_succ (ih _ _ _)
      | false => exact Nat.le_succ_of_le (ih _ _ _)

/-- Without a rekey there is one run; else the first rekey ends the first run. -/
theorem runs_first (first count t : Nat) (rest : List Bool) :
    ((∀ g : Nat, rest[g]? ≠ some true) ∧ runs first count t rest = [(first, count + rest.length)]) ∨
      ∃ j tail, rest[j]? = some true ∧ (∀ g < j, rest[g]? = some false) ∧
        runs first count t rest = (first, count + j) :: runs (t + j) 1 (t + j + 1) tail := by
  induction rest generalizing count t with
  | nil => exact .inl ⟨by simp, rfl⟩
  | cons rekeyed rest ih =>
      cases rekeyed with
      | true => exact .inr ⟨0, rest, rfl, by omega, rfl⟩
      | false =>
          rcases ih (count + 1) (t + 1) with ⟨hnone, hruns⟩ | ⟨j, tail, hj, hbefore, hruns⟩
          · refine .inl ⟨?_, ?_⟩
            · rintro (_ | g)
              · simp
              · simpa using hnone g
            · rw [runs, hruns, List.length_cons]
              congr 2
              omega
          · refine .inr ⟨j + 1, tail, by simpa using hj, ?_, ?_⟩
            · rintro (_ | g) hg
              · rfl
              · simpa using hbefore g (by omega)
            · rw [runs, hruns]
              have hcount : count + 1 + j = count + (j + 1) := by omega
              have hchunk : t + 1 + j = t + (j + 1) := by omega
              rw [hcount, hchunk]

end Runs

section Truth

/-- The flags say where the templates begin: at the first chunk, and at every chunk whose
try rekeyed. -/
def Truthful (decisions : List Bool) (flagsLen : Nat) (flags : List UInt8) : Prop :=
  flags[0]? = some 1 ∧ ∀ g, 1 ≤ g → g < flagsLen →
    (flags[g]? = some 1 ↔ decisions[g]? = some true)

/-- The first try rekeys, and every run fits into the seven bits of its marker, or all of
them are zero and the next flag would lie behind the last. -/
def Recordable (decisions : List Bool) (flagsLen : Nat) : Prop :=
  decisions[0]? = some true ∧ ∀ a b, RunOf decisions a b →
    b - a ≤ 127 ∨ (flagsLen ≤ b ∧ (b - a = 128 ∨ b - a = 256))

/-- What the flags say about a group. -/
theorem flagged_iff (rekeyed : Bool) {rest : List Bool} (hshort : rest.length ≤ 276)
    {len : Nat} (hpos : 0 < len) (hlen : len < 2 ^ 32) (flags : List UInt8) :
    ∃ flags', buildV114Stage5Flags ((runs 0 (if rekeyed then 1 else 2) 1 rest).map pack) len flags =
        (some (len >>> 8 + 1), flags') ∧
      ∀ g < len >>> 8 + 1, flags'[g]? = some 1 ↔ g = 0 ∨
        ∃ run ∈ runs 0 (if rekeyed then 1 else 2) 1 rest, run.2 % 128 ≠ 0 ∧ boundary run = g := by
  have hcount : (if rekeyed then 1 else 2) ≤ 2 := by split <;> decide
  have hmarkers : ((runs 0 (if rekeyed then 1 else 2) 1 rest).map pack).length ≤ 277 := by
    have hruns := runs_length 0 (if rekeyed then 1 else 2) 1 rest
    rw [List.length_map]
    omega
  rw [buildV114Stage5Flags, if_neg (by omega), if_neg (by omega), Nat.min_eq_left hmarkers,
    List.take_length]
  refine ⟨_, rfl, ?_⟩
  intro g hg
  rw [foldl_flagBoundary_get hg _ (by rw [List.length_set, List.length_replicate])]
  refine or_congr ?_ ?_
  · rw [List.getElem?_set, List.length_replicate]
    split
    · rename_i hzero
      simp [← hzero]
    · rename_i hzero
      rw [List.getElem?_replicate, if_pos hg]
      constructor
      · intro h
        cases h
      · intro h
        exact absurd h.symm hzero
  · simp only [List.mem_map, exists_exists_and_eq_and]
    refine exists_congr fun run => and_congr_right fun hrun => ?_
    obtain ⟨-, hfirst, hlength⟩ := runs_bounds (Nat.zero_le 1) hrun
    obtain ⟨hstart, hlow⟩ := pack_decodes (r := run) (by omega) (by omega)
    rw [hstart, hlow, boundary]

section Exact

variable {rest : List Bool} {len : Nat}

/-- The groups of a loop whose first try rekeys. -/
theorem mem_runs_rekeyed (s c : Nat) :
    (s, c) ∈ runs 0 1 1 rest ↔ RunOf (true :: rest) s (s + c) := by
  refine (@mem_runs (true :: rest) rest 0 1 1 rfl (by simp) rfl Nat.one_pos rfl ?_ s c).trans ?_
  · intro g hg hgt
    omega
  · exact and_iff_right (Nat.zero_le s)

theorem truthful_of_recordable {flagsLen : Nat} (hflags : flagsLen ≤ rest.length + 1)
    {flags : List UInt8}
    (hflagged : ∀ g < flagsLen, flags[g]? = some 1 ↔ g = 0 ∨
      ∃ run ∈ runs 0 1 1 rest, run.2 % 128 ≠ 0 ∧ boundary run = g)
    (hpos : 0 < flagsLen) (h : Recordable (true :: rest) flagsLen) :
    Truthful (true :: rest) flagsLen flags := by
  refine ⟨(hflagged 0 hpos).mpr (.inl rfl), ?_⟩
  intro g hg hlt
  rw [hflagged g hlt]
  constructor
  · rintro (rfl | ⟨⟨s, c⟩, hrun, hbits, rfl⟩)
    · omega
    · have hof := (mem_runs_rekeyed s c).mp hrun
      rcases h.2 s (s + c) hof with hc | ⟨hend, hc⟩
      · rw [Nat.add_sub_cancel_left] at hc
        rw [boundary_short (show (s, c).2 < 128 by dsimp only; omega)] at hlt ⊢
        refine hof.ends.resolve_left ?_
        rw [List.length_cons]
        dsimp only at hlt
        omega
      · dsimp only at hbits
        omega
  · intro hrekeyed
    obtain ⟨a, hof⟩ := exists_run rfl hg hrekeyed
    obtain ⟨c, rfl⟩ := Nat.exists_eq_add_of_le hof.nonempty.le
    have hc : c ≤ 127 := by
      rcases h.2 a (a + c) hof with hc | ⟨hend, -⟩
      · omega
      · omega
    have hne := hof.nonempty
    refine .inr ⟨(a, c), (mem_runs_rekeyed a c).mpr hof, by dsimp only; omega, ?_⟩
    exact boundary_short (show (a, c).2 < 128 by dsimp only; omega)

/-- A run that its marker cannot hold leaves a flag out or sets a wrong one. -/
theorem recordable_of_truthful {flagsLen : Nat} (hshort : rest.length ≤ 276)
    (hlong : 260 ≤ rest.length) (hflags : flagsLen ≤ rest.length + 1)
    (hflags' : rest.length + 1 ≤ flagsLen + 3) {flags : List UInt8}
    (hflagged : ∀ g < flagsLen, flags[g]? = some 1 ↔ g = 0 ∨
      ∃ run ∈ runs 0 1 1 rest, run.2 % 128 ≠ 0 ∧ boundary run = g)
    (h : Truthful (true :: rest) flagsLen flags) : Recordable (true :: rest) flagsLen := by
  refine ⟨rfl, ?_⟩
  intro a b hof
  obtain ⟨c, rfl⟩ := Nat.exists_eq_add_of_le hof.nonempty.le
  have hrun := (mem_runs_rekeyed a c).mpr hof
  have hlength := hof.le_length
  rw [List.length_cons] at hlength
  rw [Nat.add_sub_cancel_left]
  by_contra hbad
  simp only [not_or, not_and, not_le] at hbad
  have hc : 128 ≤ c := by omega
  have hfar := boundary_long (r := (a, c)) (by dsimp only; omega) hc
  dsimp only at hfar
  rcases Nat.lt_or_ge (a + c) flagsLen with hinside | houtside
  · -- the chunk behind the run rekeyed, and no marker has it
    have hrekeyed := hof.ends.resolve_left (by rw [List.length_cons]; omega)
    have hflag := (h.2 (a + c) (by omega) hinside).mpr hrekeyed
    rcases (hflagged _ hinside).mp hflag with hzero | ⟨⟨s, d⟩, hother, hbits, hat⟩
    · omega
    · have hof' := (mem_runs_rekeyed s d).mp hother
      have hle' := hof'.le_length
      rw [List.length_cons] at hle'
      have hlow := lt_boundary hbits
      have hhigh := boundary_le (r := (s, d)) (by dsimp only; omega)
      dsimp only at hlow hhigh
      rcases Nat.lt_trichotomy a s with hlt | heq | hgt
      · have := hof.disjoint hof' hlt
        omega
      · subst heq
        obtain ⟨-, hend⟩ := hof.eq_of_begins hof' le_rfl hof.nonempty
        obtain rfl : d = c := by omega
        omega
      · have := hof'.disjoint hof hgt
        omega
  · -- a chunk inside the run is flagged
    have hbits : (a, c).2 % 128 ≠ 0 := by
      have hnot := hbad.2 houtside
      dsimp only
      omega
    have hlow := lt_boundary hbits
    dsimp only at hlow
    have hinside : boundary (a, c) < flagsLen := by omega
    have hflag := (hflagged _ hinside).mpr (.inr ⟨(a, c), hrun, hbits, rfl⟩)
    have hrekeyed := (h.2 _ (by omega) hinside).mp hflag
    have hfalse := hof.between _ hlow (by omega)
    rw [hrekeyed] at hfalse
    cases hfalse

/-- Where the first try does not rekey, the first run is recorded one chunk too long. -/
theorem not_truthful_of_late {flagsLen : Nat} (hshort : rest.length ≤ 276)
    (hlong : 260 ≤ rest.length) (hflags' : rest.length + 1 ≤ flagsLen + 3) {flags : List UInt8}
    (hflagged : ∀ g < flagsLen, flags[g]? = some 1 ↔ g = 0 ∨
      ∃ run ∈ runs 0 2 1 rest, run.2 % 128 ≠ 0 ∧ boundary run = g) :
    ¬Truthful (false :: rest) flagsLen flags := by
  intro h
  rcases runs_first 0 2 1 rest with ⟨hnone, hruns⟩ | ⟨j, tail, hj, hbefore, hruns⟩
  · have hbits : (0, 2 + rest.length).2 % 128 ≠ 0 := by
      dsimp only
      omega
    have hlow := lt_boundary hbits
    have hfar := boundary_long (r := (0, 2 + rest.length)) (by dsimp only; omega)
      (by dsimp only; omega)
    dsimp only at hlow hfar
    have hinside : boundary (0, 2 + rest.length) < flagsLen := by omega
    have hflag := (hflagged _ hinside).mpr (.inr ⟨_, by rw [hruns]; simp, hbits, rfl⟩)
    have hrekeyed := (h.2 _ hlow hinside).mp hflag
    obtain ⟨k, hk⟩ := Nat.exists_eq_succ_of_ne_zero hlow.ne'
    rw [hk] at hrekeyed
    exact hnone k hrekeyed
  · have hjlt := (List.getElem?_eq_some_iff.mp hj).1
    rcases Nat.lt_or_ge (j + 1) flagsLen with hinside | houtside
    · -- the chunk of the first rekey has no marker
      have hflag := (h.2 (j + 1) (by omega) hinside).mpr (by simpa using hj)
      rcases (hflagged _ hinside).mp hflag with hzero | ⟨run, hrun, hbits, hat⟩
      · omega
      · rw [hruns, List.mem_cons] at hrun
        rcases hrun with rfl | hrun
        · rcases Nat.lt_or_ge (2 + j) 128 with hfew | hmany
          · rw [boundary_short hfew] at hat
            dsimp only at hat
            omega
          · have hfar := boundary_long (r := (0, 2 + j)) (by dsimp only; omega) hmany
            dsimp only at hfar
            omega
        · have hlow := lt_boundary hbits
          have hfirst := (runs_bounds (by omega) hrun).1
          omega
    · -- the marker of the first run flags a chunk inside it
      have hbits : (0, 2 + j).2 % 128 ≠ 0 := by
        dsimp only
        omega
      have hlow := lt_boundary hbits
      have hfar := boundary_long (r := (0, 2 + j)) (by dsimp only; omega) (by dsimp only; omega)
      dsimp only at hlow hfar
      have hinside : boundary (0, 2 + j) < flagsLen := by omega
      have hflag := (hflagged _ hinside).mpr (.inr ⟨_, by rw [hruns]; simp, hbits, rfl⟩)
      have hrekeyed := (h.2 _ hlow hinside).mp hflag
      obtain ⟨k, hk⟩ := Nat.exists_eq_succ_of_ne_zero hlow.ne'
      rw [hk] at hrekeyed
      have hfalse := hbefore k (by omega)
      rw [show rest[k]? = some true from hrekeyed] at hfalse
      cases hfalse

theorem dataLen_groups {tries : Nat} (step3 : Block256) (hlower : 261 ≤ tries)
    (hupper : tries ≤ 277) :
    0 < dataLen tries step3 ∧ dataLen tries step3 < 2 ^ 32 ∧
      dataLen tries step3 >>> 8 + 1 ≤ tries ∧ tries ≤ dataLen tries step3 >>> 8 + 1 + 3 := by
  obtain ⟨hge, hlt, hle⟩ := dataLen_bounds step3 hlower hupper
  rw [Nat.shiftRight_eq_div_pow]
  omega

/-- The flags of a loop are truthful exactly when its runs can be recorded. -/
theorem flags_of_decisions (rekeyed : Bool) (hlower : 260 ≤ rest.length)
    (hupper : rest.length ≤ 276) (step3 : Block256) (flags : List UInt8) :
    ∃ markers flags', recorded (rekeyed :: rest) = some markers ∧
      buildV114Stage5Flags markers (dataLen (rest.length + 1) step3) flags =
        (some (dataLen (rest.length + 1) step3 >>> 8 + 1), flags') ∧
      (Truthful (rekeyed :: rest) (dataLen (rest.length + 1) step3 >>> 8 + 1) flags' ↔
        Recordable (rekeyed :: rest) (dataLen (rest.length + 1) step3 >>> 8 + 1)) := by
  obtain ⟨hpos, hlt, hle, hge⟩ :=
    dataLen_groups step3 (show 261 ≤ rest.length + 1 by omega) (by omega)
  obtain ⟨flags', hbuilt, hflagged⟩ := flagged_iff rekeyed hupper hpos hlt flags
  refine ⟨_, flags', recorded_eq rekeyed rest, hbuilt, ?_⟩
  cases rekeyed with
  | true =>
      exact ⟨recordable_of_truthful hupper hlower hle hge hflagged,
        truthful_of_recordable hle hflagged (Nat.succ_pos _)⟩
  | false =>
      refine iff_of_false (not_truthful_of_late hupper hlower hge hflagged) ?_
      rintro ⟨hfirst, -⟩
      cases hfirst

end Exact

/-- So it is for the decisions of the loop itself. -/
theorem prepared_flags_iff (P : Primitives) (input : List UInt8) (scratch : AstroBwtScratch)
    (flags : List UInt8) {len : Nat} {scratch' : AstroBwtScratch}
    (h : astrobwtv3Prepare P input scratch = some (len, scratch')) :
    ∃ flags', buildV114Stage5Flags scratch'.v114Markers len flags = (some (len >>> 8 + 1), flags') ∧
      (Truthful (decisions P maxTries 0 (prologue P input)) (len >>> 8 + 1) flags' ↔
        Recordable (decisions P maxTries 0 (prologue P input)) (len >>> 8 + 1)) := by
  obtain ⟨tries, st, data, m, -, hprepare, hlower, hupper, -⟩ := prepareLoop_ends P input
  obtain ⟨-, hcount⟩ := prepareLoop_rounds P _ _ _ _ _ hprepare
  obtain ⟨step3, hlen, hrecorded⟩ := astrobwtv3Prepare_recorded P input scratch h
  rw [maxTries] at hupper
  generalize decisions P maxTries 0 (prologue P input) = made at hcount hlen hrecorded ⊢
  cases made with
  | nil =>
      rw [List.length_nil] at hcount
      omega
  | cons rekeyed rest =>
      rw [List.length_cons] at hcount hlen
      obtain ⟨markers, flags', hmarkers, hbuilt, hiff⟩ :=
        flags_of_decisions rekeyed (show 260 ≤ rest.length by omega) (by omega) step3 flags
      obtain rfl := Option.some.inj (hrecorded.symm.trans hmarkers)
      rw [← hlen] at hbuilt hiff
      exact ⟨flags', hbuilt, hiff⟩

end Truth

end DirtybirdMiner.Astro.Markers
