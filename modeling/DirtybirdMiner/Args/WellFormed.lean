import DirtybirdMiner.Args.Parser

/-!
Well-formed CBOR items as a relation between the offsets where they start and
stop.  What the validator accepts is an item, and the validator always returns.
-/

namespace DirtybirdMiner.Args.WellFormed

open DirtybirdMiner.Lib.Bytes
open DirtybirdMiner.Lib.Buffers
open DirtybirdMiner.Lib.Programs
open DirtybirdMiner.Lib.Programs.Prog
open DirtybirdMiner.Args.Validator
open DirtybirdMiner.Args.Parser

variable {data : List UInt8}

section Primitives

theorem peek_of_eq {o : Nat} {b : UInt8} (h : data[o]? = some b) :
    peek data o = some (.ok b, o) := by
  simp [peek, h]

theorem peek_eq_ok {o o' : Nat} {b : UInt8} (h : peek data o = some (.ok b, o')) :
    data[o]? = some b ∧ o' = o := by
  simp only [peek, get_bind_apply] at h
  cases hb : data[o]? with
  | none =>
      rw [hb] at h
      cases h
  | some c =>
      rw [hb] at h
      cases h
      exact ⟨rfl, rfl⟩

theorem peek_ends {o : Nat} (h : o < data.length) :
    ∃ b, data[o]? = some b ∧ peek data o = some (.ok b, o) :=
  ⟨data[o], List.getElem?_eq_getElem h, peek_of_eq (List.getElem?_eq_getElem h)⟩

theorem take_of_le {o len : Nat} (h : o + len ≤ data.length) :
    take data len o = some (.ok (slice data o len), o + len) := by
  simp [take, readAt_eq_some h]

theorem number_of_le {o width : Nat} (h : o + width ≤ data.length) :
    number data width o = some (.ok (beValue (slice data o width)), o + width) := by
  rw [number, bind_ok (take_of_le h)]
  rfl

theorem number_eq_ok {o width val o' : Nat} (h : number data width o = some (.ok val, o')) :
    o + width ≤ data.length ∧ val = beValue (slice data o width) ∧ o' = o + width := by
  by_cases hle : o + width ≤ data.length
  · rw [number_of_le hle] at h
    cases h
    exact ⟨hle, rfl, rfl⟩
  · rw [number, take] at h
    simp [readAt, hle, bind, demand, crash] at h

end Primitives

section Heads

/-- How many bytes of a head follow its first byte. -/
def width (ai : Nat) : Nat :=
  if ai = 24 then 1 else if ai = 25 then 2 else if ai = 26 then 4 else if ai = 27 then 8 else 0

/-- The head at an offset, and where it stops. -/
structure Head (data : List UInt8) (o t ai val stop : Nat) : Prop where
  byte : ∃ b : UInt8, data[o]? = some b ∧ t = b.toNat / 32 ∧ ai = b.toNat % 32
  value : val = if width ai = 0 then ai else beValue (slice data (o + 1) (width ai))
  stop_eq : stop = o + 1 + width ai
  fits : stop ≤ data.length

variable {o t ai val stop : Nat}

theorem Head.lt (h : Head data o t ai val stop) : o < stop := by
  have := h.stop_eq
  omega

/-- A major type has three bits. -/
theorem Head.major_lt (h : Head data o t ai val stop) : t < 8 := by
  obtain ⟨b, -, ht, -⟩ := h.byte
  have := b.toNat_lt
  omega

theorem Head.getHead (h : Head data o t ai val stop) :
    getHead data o = some (.ok (t, ai, val), stop) := by
  obtain ⟨⟨b, hb, rfl, rfl⟩, rfl, rfl, hfits⟩ := h
  rw [Parser.getHead, get_bind_apply, bind_ok (peek_of_eq hb)]
  simp only [set_bind_apply]
  unfold width at *
  split_ifs at * with h24 h25 h26 h27 <;>
    first
    | omega
    | (rw [bind_ok (number_of_le (by omega))]; rfl)
    | rfl

theorem Head.nextMajor (h : Head data o t ai val stop) :
    nextMajor data o = some (.ok t, o) := by
  obtain ⟨b, hb, rfl, -⟩ := h.byte
  rw [Parser.nextMajor, bind_ok (peek_of_eq hb)]
  rfl

/-- A head with a length or a number is no break code. -/
theorem Head.not_break (h : Head data o t ai val stop) (hbreak : ¬(t = 7 ∧ ai = 31)) :
    foundBreak data o = some (.ok false, o) := by
  obtain ⟨b, hb, rfl, rfl⟩ := h.byte
  have hne : b ≠ 0xff := by
    rintro rfl
    exact hbreak ⟨rfl, rfl⟩
  rw [foundBreak, get_bind_apply, bind_ok (peek_of_eq hb), if_neg hne]
  rfl

theorem Head.unique {t' ai' val' stop' : Nat} (h : Head data o t ai val stop)
    (h' : Head data o t' ai' val' stop') : t = t' ∧ ai = ai' ∧ val = val' ∧ stop = stop' := by
  have heq := h.getHead.symm.trans h'.getHead
  simp at heq
  omega

/-- What the validator knows about a number. -/
theorem validNumber_eq_ok {dataLen : Nat}
    (h : validNumber data dataLen t ai (o + 1) = some (.ok val, stop)) :
    val = (if width ai = 0 then ai else beValue (slice data (o + 1) (width ai))) ∧
      stop = o + 1 + width ai ∧ (width ai = 0 ∨ stop ≤ data.length) ∧
      (ai = 31 → t ≠ 0 ∧ t ≠ 1 ∧ t ≠ 6 ∧ t ≠ 7) := by
  have hnumber : ∀ {w : Nat}, number data w (o + 1) = some (.ok val, stop) →
      val = beValue (slice data (o + 1) w) ∧ stop = o + 1 + w ∧ stop ≤ data.length := by
    intro w hw
    obtain ⟨hle, hval, hstop⟩ := number_eq_ok hw
    exact ⟨hval, hstop, by omega⟩
  unfold validNumber at h
  split_ifs at h with h23 h24 _ h25 _ h26 _ h27 _ h31 ht ht7 <;> try cases h
  · have hwidth : width ai = 0 := by
      unfold width
      rw [if_neg (by omega), if_neg (by omega), if_neg (by omega), if_neg (by omega)]
    simp [hwidth]
    omega
  · subst h24
    replace h := bind_eq_ok h
    obtain ⟨v, o', hv, h⟩ := h
    have hsame : v = val ∧ o' = stop := by
      split_ifs at h
      · cases h
      · cases h
        exact ⟨rfl, rfl⟩
    obtain ⟨rfl, rfl⟩ := hsame
    obtain ⟨hval, hstop, hle⟩ := hnumber hv
    exact ⟨hval, hstop, .inr hle, by simp⟩
  · subst h25
    obtain ⟨hval, hstop, hle⟩ := hnumber h
    exact ⟨hval, hstop, .inr hle, by simp⟩
  · subst h26
    obtain ⟨hval, hstop, hle⟩ := hnumber h
    exact ⟨hval, hstop, .inr hle, by simp⟩
  · subst h27
    obtain ⟨hval, hstop, hle⟩ := hnumber h
    exact ⟨hval, hstop, .inr hle, by simp⟩
  · subst h31
    exact ⟨rfl, rfl, .inl rfl, fun _ => by omega⟩

theorem validHead_eq_ok (h : validHead data o = some (.ok (t, ai, val), stop)) :
    Head data o t ai val stop ∧ (ai = 31 → t ≠ 0 ∧ t ≠ 1 ∧ t ≠ 6 ∧ t ≠ 7) := by
  rw [validHead, get_bind_apply] at h
  by_cases hle : o ≤ data.length
  · rw [if_pos hle, demand_some, pure_bind] at h
    split_ifs at h with hempty
    · cases h
    · replace h := bind_eq_ok h
      obtain ⟨b, o', hpeek, h⟩ := h
      obtain ⟨hb, rfl⟩ := peek_eq_ok hpeek
      simp only [set_bind_apply] at h
      replace h := bind_eq_ok h
      obtain ⟨v, s, hv, h⟩ := h
      cases h
      obtain ⟨hval, hstop, hfits, hai⟩ := validNumber_eq_ok hv
      exact ⟨⟨⟨b, hb, rfl, rfl⟩, hval, hstop, by omega⟩, hai⟩
  · rw [if_neg hle] at h
    cases h

end Heads

section Items

/-- A byte or text string of a given length, from its head to its last byte. -/
def Chunk (data : List UInt8) (t o e : Nat) : Prop :=
  ∃ ai val stop, Head data o t ai val stop ∧ ai ≠ 31 ∧ e = stop + val ∧ e ≤ data.length

/-- How the items of a head end, of which the last one stops at `last`: there are
as many as the head says, or a break code follows. -/
def Closed (data : List UInt8) (ai val n last e : Nat) : Prop :=
  (ai ≠ 31 ∧ n = val ∧ e = last) ∨ (ai = 31 ∧ data[last]? = some 0xff ∧ e = last + 1)

/-- A well-formed item starts at the first offset and stops at the second. -/
inductive Item (data : List UInt8) : Nat → Nat → Prop
  | atom {o t ai val e : Nat} (head : Head data o t ai val e) (major : t = 0 ∨ t = 1 ∨ t = 7)
      (definite : ai ≠ 31) : Item data o e
  | chunk {o t e : Nat} (major : t = 2 ∨ t = 3) (chunk : Chunk data t o e) : Item data o e
  | chunks {o t val n : Nat} {starts : Nat → Nat} (head : Head data o t 31 val (starts 0))
      (major : t = 2 ∨ t = 3) (chunks : ∀ i < n, Chunk data t (starts i) (starts (i + 1)))
      (stop : data[starts n]? = some 0xff) : Item data o (starts n + 1)
  | array {o ai val n e : Nat} {starts : Nat → Nat} (head : Head data o 4 ai val (starts 0))
      (items : ∀ i < n, Item data (starts i) (starts (i + 1)))
      (closed : Closed data ai val n (starts n) e) : Item data o e
  | map {o ai val n e : Nat} {starts : Nat → Nat} (head : Head data o 5 ai val (starts 0))
      (items : ∀ i < 2 * n, Item data (starts i) (starts (i + 1)))
      (closed : Closed data ai val n (starts (2 * n)) e) (few : n ≤ maxMapPairs) :
      Item data o e
  | tag {o ai num stop e : Nat} (head : Head data o 6 ai num stop) (content : Item data stop e) :
      Item data o e

theorem Chunk.lt {t o e : Nat} (h : Chunk data t o e) : o < e := by
  obtain ⟨ai, val, stop, hhead, -, rfl, -⟩ := h
  have := hhead.lt
  omega

theorem Chunk.le {t o e : Nat} (h : Chunk data t o e) : e ≤ data.length := by
  obtain ⟨ai, val, stop, -, -, -, hle⟩ := h
  exact hle

theorem Closed.le {ai val n last e : Nat} (h : Closed data ai val n last e) : last ≤ e := by
  rcases h with ⟨-, -, rfl⟩ | ⟨-, -, rfl⟩ <;> omega

theorem Closed.le_length {ai val n last e : Nat} (h : Closed data ai val n last e)
    (hlast : last ≤ data.length) : e ≤ data.length := by
  rcases h with ⟨-, -, rfl⟩ | ⟨-, hbreak, rfl⟩
  · exact hlast
  · exact (List.getElem?_eq_some_iff.mp hbreak).1

/-- Offsets that rise step by step. -/
theorem starts_mono {starts : Nat → Nat} {n : Nat} (h : ∀ i < n, starts i < starts (i + 1))
    {i j : Nat} (hij : i ≤ j) (hj : j ≤ n) : starts i + (j - i) ≤ starts j := by
  induction j with
  | zero =>
      obtain rfl : i = 0 := by omega
      exact le_rfl
  | succ j ih =>
      rcases Nat.lt_or_ge j i with hlt | hge
      · obtain rfl : i = j + 1 := by omega
        omega
      · have hstep := h j (by omega)
        have hrest := ih hge (by omega)
        omega

/-- The last offset of a row of stretches inside the data. -/
theorem starts_le {starts : Nat → Nat} {n : Nat} (h : ∀ i < n, starts (i + 1) ≤ data.length)
    (h0 : starts 0 ≤ data.length) : starts n ≤ data.length := by
  cases n with
  | zero => exact h0
  | succ n => exact h n (by omega)

theorem Item.bounds {o e : Nat} (h : Item data o e) : o < e ∧ e ≤ data.length := by
  induction h with
  | atom head => exact ⟨head.lt, head.fits⟩
  | chunk _ chunk => exact ⟨chunk.lt, chunk.le⟩
  | chunks head _ chunks stop =>
      have hmono := starts_mono (fun i hi => (chunks i hi).lt) (Nat.zero_le _) le_rfl
      have hhead := head.lt
      exact ⟨by omega, (List.getElem?_eq_some_iff.mp stop).1⟩
  | array head _ closed ih =>
      have hmono := starts_mono (fun i hi => (ih i hi).1) (Nat.zero_le _) le_rfl
      have hhead := head.lt
      have hclosed := closed.le
      exact ⟨by omega, closed.le_length (starts_le (fun i hi => (ih i hi).2) head.fits)⟩
  | map head _ closed _ ih =>
      have hmono := starts_mono (fun i hi => (ih i hi).1) (Nat.zero_le _) le_rfl
      have hhead := head.lt
      have hclosed := closed.le
      exact ⟨by omega, closed.le_length (starts_le (fun i hi => (ih i hi).2) head.fits)⟩
  | tag head _ ih =>
      have hhead := head.lt
      exact ⟨by omega, ih.2⟩

theorem Item.lt {o e : Nat} (h : Item data o e) : o < e := h.bounds.1

theorem Item.le {o e : Nat} (h : Item data o e) : e ≤ data.length := h.bounds.2

/-- An item starts with a head that is no break code. -/
theorem Item.head {o e : Nat} (h : Item data o e) :
    ∃ t ai val stop, Head data o t ai val stop ∧ ¬(t = 7 ∧ ai = 31) := by
  cases h with
  | atom head _ definite => exact ⟨_, _, _, _, head, by simp [definite]⟩
  | chunk major chunk =>
      obtain ⟨ai, val, stop, head, -⟩ := chunk
      exact ⟨_, _, _, _, head, by omega⟩
  | chunks head major => exact ⟨_, _, _, _, head, by omega⟩
  | array head => exact ⟨_, _, _, _, head, by omega⟩
  | map head => exact ⟨_, _, _, _, head, by omega⟩
  | tag head => exact ⟨_, _, _, _, head, by omega⟩

theorem foundBreak_of_break {o : Nat} (h : data[o]? = some 0xff) :
    foundBreak data o = some (.ok true, o + 1) := by
  rw [foundBreak, get_bind_apply, bind_ok (peek_of_eq h)]
  rfl

theorem Chunk.foundBreak {t o e : Nat} (h : Chunk data t o e) (ht : t = 2 ∨ t = 3) :
    foundBreak data o = some (.ok false, o) := by
  obtain ⟨ai, val, stop, head, -⟩ := h
  exact head.not_break (by omega)

theorem Item.foundBreak {o e : Nat} (h : Item data o e) :
    foundBreak data o = some (.ok false, o) := by
  obtain ⟨t, ai, val, stop, head, hbreak⟩ := h.head
  exact head.not_break hbreak

theorem Chunk.take {t o e : Nat} (h : Chunk data t o e) :
    ∃ ai val stop, getHead data o = some (.ok (t, ai, val), stop) ∧ ai ≠ 31 ∧
      Validator.take data val stop = some (.ok (slice data stop val), e) := by
  obtain ⟨ai, val, stop, head, hai, rfl, hle⟩ := h
  exact ⟨ai, val, stop, head.getHead, hai, take_of_le hle⟩

/-- A byte or text string, in one piece or in chunks. -/
def Strings (data : List UInt8) (t o e : Nat) : Prop :=
  Chunk data t o e ∨ ∃ (val n : Nat) (starts : Nat → Nat), Head data o t 31 val (starts 0) ∧
    (∀ i < n, Chunk data t (starts i) (starts (i + 1))) ∧
    data[starts n]? = some 0xff ∧ e = starts n + 1

theorem Item.strings {o t ai val stop e : Nat} (h : Item data o e)
    (head : Head data o t ai val stop) (ht : t = 2 ∨ t = 3) : Strings data t o e := by
  cases h with
  | atom head' =>
      have := Head.unique head head'
      omega
  | chunk major chunk =>
      obtain ⟨_, _, _, head', -⟩ := id chunk
      obtain ⟨rfl, -⟩ := Head.unique head head'
      exact .inl chunk
  | chunks head' _ chunks stop =>
      obtain ⟨rfl, rfl, -⟩ := Head.unique head head'
      exact .inr ⟨_, _, _, head', chunks, stop, rfl⟩
  | array head' =>
      have := Head.unique head head'
      omega
  | map head' =>
      have := Head.unique head head'
      omega
  | tag head' =>
      have := Head.unique head head'
      omega

theorem Item.content {o ai num stop e : Nat} (h : Item data o e)
    (head : Head data o 6 ai num stop) : Item data stop e := by
  cases h with
  | atom head' =>
      have := head.unique head'
      omega
  | chunk _ chunk =>
      obtain ⟨_, _, _, head', -⟩ := chunk
      have := head.unique head'
      omega
  | chunks head' =>
      have := head.unique head'
      omega
  | array head' =>
      have := head.unique head'
      omega
  | map head' =>
      have := head.unique head'
      omega
  | tag head' content =>
      obtain ⟨-, -, -, rfl⟩ := head.unique head'
      exact content

end Items

section Sound

/-- A string whose head gives its length is a chunk. -/
theorem Item.toChunk {o e : Nat} {b : UInt8} (h : Item data o e) (hb : data[o]? = some b)
    (hmajor : b.toNat / 32 = 2 ∨ b.toNat / 32 = 3) (hdefinite : b.toNat % 32 ≠ 31) :
    Chunk data (b.toNat / 32) o e := by
  have hsame : ∀ {t ai val stop}, Head data o t ai val stop →
      t = b.toNat / 32 ∧ ai = b.toNat % 32 := by
    intro t ai val stop head
    obtain ⟨c, hc, rfl, rfl⟩ := head.byte
    rw [hb] at hc
    cases hc
    exact ⟨rfl, rfl⟩
  cases h with
  | atom head major =>
      have := hsame head
      omega
  | chunk major chunk =>
      obtain ⟨ai, val, stop, head, hrest⟩ := chunk
      obtain ⟨rfl, -⟩ := hsame head
      exact ⟨ai, val, stop, head, hrest⟩
  | chunks head =>
      have := hsame head
      omega
  | array head =>
      have := hsame head
      omega
  | map head =>
      have := hsame head
      omega
  | tag head =>
      have := hsame head
      omega

theorem validBreak_eq_ok {o e : Nat} {stop : Bool}
    (h : validBreak data o = some (.ok stop, e)) :
    (stop = true ∧ data[o]? = some 0xff ∧ e = o + 1) ∨
      (stop = false ∧ e = o ∧ o < data.length) := by
  rw [validBreak, get_bind_apply] at h
  split_ifs at h
  · cases h
  · replace h := bind_eq_ok h
    obtain ⟨b, o', hpeek, h⟩ := h
    obtain ⟨hb, rfl⟩ := peek_eq_ok hpeek
    split_ifs at h with hbreak
    · cases h
      exact .inl ⟨rfl, hbreak ▸ hb, rfl⟩
    · cases h
      exact .inr ⟨rfl, rfl, (List.getElem?_eq_some_iff.mp hb).1⟩

theorem tagTurn_eq_ok {depth o e : Nat} {r : Nat ⊕ Nat}
    (h : tagTurn data depth o = some (.ok r, e)) :
    (r = .inr depth ∧ e = o) ∨
      (∃ ai num, r = .inl (depth + 1) ∧ Head data o 6 ai num e) := by
  rw [tagTurn, get_bind_apply] at h
  split at h
  · cases h
  · replace h := bind_eq_ok h
    obtain ⟨b, o', hpeek, h⟩ := h
    obtain ⟨hb, rfl⟩ := peek_eq_ok hpeek
    split at h
    · cases h
      exact .inl ⟨rfl, rfl⟩
    · rename_i hmajor
      replace h := bind_eq_ok h
      obtain ⟨⟨t, ai, num⟩, e', hhead, h⟩ := h
      split at h
      · cases h
      · cases h
        obtain ⟨head, -⟩ := validHead_eq_ok hhead
        obtain ⟨c, hc, rfl, -⟩ := head.byte
        rw [hb] at hc
        cases hc
        rw [not_not] at hmajor
        rw [hmajor] at head
        exact .inr ⟨ai, num, rfl, head⟩

/-- An item behind the tags is an item with them. -/
theorem validTags_eq_ok {depth o d e : Nat} (h : validTags data depth o = some (.ok d, e))
    {stop : Nat} (content : Item data e stop) : Item data o stop := by
  obtain ⟨n, locals, starts, -, rfl, hstep, hlast⟩ := loop_eq_ok h
  have hend : e = starts n := by
    rcases tagTurn_eq_ok hlast with ⟨-, rfl⟩ | ⟨_, _, hr, -⟩
    · rfl
    · cases hr
  subst hend
  have hback : ∀ k ≤ n, Item data (starts (n - k)) stop := by
    intro k hk
    induction k with
    | zero => exact content
    | succ k ih =>
        rcases tagTurn_eq_ok (hstep (n - (k + 1)) (by omega)) with ⟨hr, -⟩ | ⟨ai, num, -, head⟩
        · cases hr
        · refine .tag head ?_
          rw [show n - (k + 1) + 1 = n - k by omega]
          exact ih (by omega)
  simpa using hback n le_rfl

variable {recur : Nat → Reader Nat}
  (hrecur : ∀ {depth o d e : Nat}, recur depth o = some (.ok d, e) → Item data o e)
include hrecur

theorem stringTurn_eq_ok {t depth o e : Nat} {r : Nat ⊕ Nat} (ht : t = 2 ∨ t = 3)
    (h : stringTurn data recur t depth o = some (.ok r, e)) :
    (r = .inr depth ∧ data[o]? = some 0xff ∧ e = o + 1) ∨
      (∃ d, r = .inl d ∧ Chunk data t o e) := by
  replace h := bind_eq_ok h
  obtain ⟨stop, o', hbreak, h⟩ := h
  rcases validBreak_eq_ok hbreak with ⟨rfl, hff, rfl⟩ | ⟨rfl, rfl, -⟩
  · cases h
    exact .inl ⟨rfl, hff, rfl⟩
  · rw [if_neg Bool.false_ne_true] at h
    replace h := bind_eq_ok h
    obtain ⟨b, o'', hpeek, h⟩ := h
    obtain ⟨hb, rfl⟩ := peek_eq_ok hpeek
    split_ifs at h with hmajor hdefinite
    · cases h
    · cases h
    · replace h := bind_eq_ok h
      obtain ⟨d, e', hrec, h⟩ := h
      cases h
      rw [not_not] at hmajor
      subst hmajor
      exact .inr ⟨d, rfl, (hrecur hrec).toChunk hb ht hdefinite⟩

theorem itemTurn_eq_ok {t depth o e : Nat} {s : Nat × Nat} {r : Nat × Nat ⊕ Nat × Nat}
    (h : itemTurn data recur t depth s o = some (.ok r, e)) :
    (r = .inr s ∧ data[o]? = some 0xff ∧ e = o + 1) ∨
      (∃ d, r = .inl (d, s.2 + 1) ∧ Item data o e ∧
        (t ≠ 4 → (s.2 + 1) % 2 = 0 → (s.2 + 1) / 2 ≤ maxMapPairs)) := by
  replace h := bind_eq_ok h
  obtain ⟨stop, o', hbreak, h⟩ := h
  rcases validBreak_eq_ok hbreak with ⟨rfl, hff, rfl⟩ | ⟨rfl, rfl, -⟩
  · cases h
    exact .inl ⟨rfl, hff, rfl⟩
  · rw [if_neg Bool.false_ne_true] at h
    replace h := bind_eq_ok h
    obtain ⟨d, e', hrec, h⟩ := h
    split at h
    · cases h
    · split at h
      · cases h
      · cases h
        exact .inr ⟨_, rfl, hrecur hrec, by omega⟩

theorem validIndefiniteString_eq_ok {t depth o d e : Nat} (ht : t = 2 ∨ t = 3)
    (h : validIndefiniteString data recur t depth o = some (.ok d, e)) :
    ∃ (n : Nat) (starts : Nat → Nat), starts 0 = o ∧
      (∀ i < n, Chunk data t (starts i) (starts (i + 1))) ∧
      data[starts n]? = some 0xff ∧ e = starts n + 1 := by
  obtain ⟨n, locals, starts, -, hstart, hstep, hlast⟩ := loop_eq_ok h
  refine ⟨n, starts, hstart, ?_, ?_⟩
  · intro i hi
    rcases stringTurn_eq_ok hrecur ht (hstep i hi) with ⟨hr, -⟩ | ⟨_, -, hchunk⟩
    · cases hr
    · exact hchunk
  · rcases stringTurn_eq_ok hrecur ht hlast with ⟨-, hbreak⟩ | ⟨_, hr, -⟩
    · exact hbreak
    · cases hr

/-- The number of items in a map is even. -/
theorem validIndefiniteArrayOrMap_eq_ok {t depth o d e : Nat}
    (h : validIndefiniteArrayOrMap data recur t depth o = some (.ok d, e)) :
    ∃ (n : Nat) (starts : Nat → Nat), starts 0 = o ∧
      (∀ i < n, Item data (starts i) (starts (i + 1))) ∧
      data[starts n]? = some 0xff ∧ e = starts n + 1 ∧
      (t = 5 → n % 2 = 0 ∧ n / 2 ≤ maxMapPairs) := by
  replace h := bind_eq_ok h
  obtain ⟨⟨maxDepth, count⟩, e', hloop, h⟩ := h
  obtain ⟨n, locals, starts, hlocals, hstart, hstep, hlast⟩ := loop_eq_ok hloop
  have hturns : ∀ i < n, Item data (starts i) (starts (i + 1)) ∧
      (locals (i + 1)).2 = (locals i).2 + 1 ∧
      (t ≠ 4 → ((locals i).2 + 1) % 2 = 0 → ((locals i).2 + 1) / 2 ≤ maxMapPairs) := by
    intro i hi
    rcases itemTurn_eq_ok hrecur (hstep i hi) with ⟨hr, -⟩ | ⟨_, hr, hitem, hfew⟩
    · cases hr
    · exact ⟨hitem, by rw [Sum.inl.inj hr], hfew⟩
  have hcount : ∀ i ≤ n, (locals i).2 = i := by
    intro i hi
    induction i with
    | zero => rw [hlocals]
    | succ i ih => rw [(hturns i (by omega)).2.1, ih (by omega)]
  rcases itemTurn_eq_ok hrecur hlast with ⟨hr, hff, rfl⟩ | ⟨_, hr, -⟩
  · have hn : count = n := by
      rw [← hcount n le_rfl, ← Sum.inr.inj hr]
    dsimp only at h
    split_ifs at h with hodd
    · cases h
    · cases h
      refine ⟨n, starts, hstart, fun i hi => (hturns i hi).1, hff, rfl, ?_⟩
      intro ht
      refine ⟨by omega, ?_⟩
      cases n with
      | zero => exact Nat.zero_le _
      | succ n =>
          -- The bound was checked behind the last item.
          have hfew := (hturns n (by omega)).2.2
          rw [hcount n (by omega)] at hfew
          exact hfew (by omega) (by omega)
  · cases hr

theorem validItems_eq_ok {t val depth o d e : Nat}
    (h : validItems recur t val depth o = some (.ok d, e)) :
    ∃ starts : Nat → Nat, starts 0 = o ∧
      (∀ i < (if t = 5 then 2 else 1) * val, Item data (starts i) (starts (i + 1))) ∧
      e = starts ((if t = 5 then 2 else 1) * val) := by
  rw [validItems, times_times] at h
  obtain ⟨locals, starts, -, hstart, hstep, -, hend⟩ := times_eq_ok h
  refine ⟨starts, hstart, ?_, hend.symm⟩
  intro i hi
  obtain ⟨d', e', hrec, hturn⟩ := bind_eq_ok (hstep i hi)
  obtain rfl : e' = starts (i + 1) := congrArg Prod.snd (Option.some.inj hturn)
  exact hrecur hrec

theorem validString_item {t ai val stop depth o d e : Nat} (ht : t = 2 ∨ t = 3)
    (head : Head data o t ai val stop)
    (h : validString data recur t ai val depth stop = some (.ok d, e)) : Item data o e := by
  unfold validString at h
  split_ifs at h with hai
  · subst hai
    obtain ⟨n, starts, rfl, hchunks, hbreak, rfl⟩ := validIndefiniteString_eq_ok hrecur ht h
    exact .chunks head ht hchunks hbreak
  · cases h
  · rw [get_bind_apply] at h
    split_ifs at h with hshort
    · cases h
    · cases h
      have := head.fits
      exact .chunk ht ⟨ai, val, stop, head, hai, rfl, by omega⟩

theorem validArrayOrMap_item {t ai val stop depth o d e : Nat} (ht : t = 4 ∨ t = 5)
    (head : Head data o t ai val stop)
    (h : validArrayOrMap data recur t ai val depth stop = some (.ok d, e)) : Item data o e := by
  unfold validArrayOrMap at h
  split_ifs at h with hnested hai hlarge helements hpairs <;> try cases h
  · subst hai
    obtain ⟨n, starts, rfl, hitems, hbreak, rfl, heven⟩ :=
      validIndefiniteArrayOrMap_eq_ok hrecur h
    rcases ht with rfl | rfl
    · exact .array head hitems (.inr ⟨rfl, hbreak, rfl⟩)
    · obtain ⟨heven, hfew⟩ := heven rfl
      have hn : n = 2 * (n / 2) := by omega
      rw [hn] at hitems hbreak ⊢
      exact .map head hitems (.inr ⟨rfl, hbreak, rfl⟩) hfew
  · obtain ⟨starts, rfl, hitems, rfl⟩ := validItems_eq_ok hrecur h
    rcases ht with rfl | rfl
    · simp only [show ¬(4 = 5) by decide, if_false, one_mul] at hitems ⊢
      exact .array head hitems (.inl ⟨hai, rfl, rfl⟩)
    · simp only [if_true] at hitems ⊢
      exact .map head hitems (.inl ⟨hai, rfl, rfl⟩) (by omega)

omit hrecur

/-- What the validator accepts is an item. -/
theorem validInternal_item {fuel depth o d e : Nat}
    (h : validInternal data fuel depth o = some (.ok d, e)) : Item data o e := by
  induction fuel generalizing depth o d e with
  | zero => cases h
  | succ fuel ih =>
      replace h := bind_eq_ok h
      obtain ⟨⟨t, ai, val⟩, stop, hhead, h⟩ := h
      obtain ⟨head, hai⟩ := validHead_eq_ok hhead
      have := head.major_lt
      dsimp only at h
      split_ifs at h with hstring harray htag
      · exact validString_item ih hstring head h
      · exact validArrayOrMap_item ih harray head h
      · subst htag
        replace h := bind_eq_ok h
        obtain ⟨depth', o', htags, h⟩ := h
        exact .tag head (validTags_eq_ok htags (ih h))
      · cases h
        exact .atom head (by omega) (fun h31 => by have := hai h31; omega)

end Sound

section Total

/-- The program returns. -/
abbrev Halts {α : Type} (p : Reader α) (o : Nat) : Prop := Ends p o fun _ _ => True

theorem halts_pure {α : Type} (a : α) (o : Nat) : Halts (pure a) o := .of_eq rfl trivial

theorem halts_fail {α : Type} (e : Times.Message) (o : Nat) : Halts (fail e : Reader α) o :=
  .of_eq rfl trivial

theorem validNumber_halts {o t ai : Nat} (h : o < data.length) :
    Halts (validNumber data (data.length - o) t ai) (o + 1) := by
  have hnumber : ∀ {w : Nat}, ¬data.length - o < w + 1 → Halts (number data w) (o + 1) := by
    intro w hw
    exact .of_eq (number_of_le (by omega)) trivial
  unfold validNumber
  split_ifs with h23 h24 hlen
  case pos => exact halts_pure _ _
  case pos => exact halts_fail _ _
  case neg =>
    refine (hnumber hlen).bind ?_ fun _ _ _ => trivial
    intro val o' _
    split_ifs
    · exact halts_fail _ _
    · exact halts_pure _ _
  all_goals first
    | exact halts_fail _ _
    | exact halts_pure _ _
    | exact hnumber ‹_›

theorem validHead_halts {o : Nat} (h : o ≤ data.length) : Halts (validHead data) o := by
  refine Ends.after rfl ?_
  rw [if_pos h, demand_some, pure_bind]
  split_ifs with hempty
  · exact halts_fail _ _
  · obtain ⟨b, hb, hpeek⟩ := peek_ends (by omega : o < data.length)
    refine Ends.after hpeek (Ends.after rfl ?_)
    refine (validNumber_halts (by omega)).bind ?_ fun _ _ _ => trivial
    intro val o' _
    exact halts_pure _ _

theorem validBreak_halts {o : Nat} (h : o ≤ data.length) : Halts (validBreak data) o := by
  refine Ends.after rfl ?_
  split_ifs with hempty
  · exact halts_fail _ _
  · obtain ⟨b, hb, hpeek⟩ := peek_ends (by omega : o < data.length)
    refine Ends.after hpeek ?_
    split_ifs
    · exact Ends.after rfl (halts_pure _ _)
    · exact halts_pure _ _

theorem tagTurn_halts {depth o : Nat} (h : o ≤ data.length) : Halts (tagTurn data depth) o := by
  refine Ends.after rfl ?_
  split
  · exact halts_fail _ _
  · obtain ⟨b, hb, hpeek⟩ := peek_ends (by omega : o < data.length)
    refine Ends.after hpeek ?_
    split
    · exact halts_pure _ _
    · refine (validHead_halts h).bind ?_ fun _ _ _ => trivial
      intro _ o' _
      split
      · exact halts_fail _ _
      · exact halts_pure _ _

/-- A loop over the bytes halts when every turn does, goes forward and stays in
the data. -/
theorem halts_loop {α β : Type} {body : β → Reader (β ⊕ α)} {o : Nat} (h : o ≤ data.length)
    (hbody : ∀ b o', o ≤ o' → o' ≤ data.length → Halts (body b) o')
    (hforward : ∀ {b b' o' e}, body b o' = some (.ok (.inl b'), e) → o' < e ∧ e ≤ data.length)
    (b : β) : Halts (loop body (data.length + 1) b) o := by
  refine Ends.loop (I := fun _ o' => o ≤ o' ∧ o' ≤ data.length)
    (m := fun _ o' => data.length - o') ?_ ⟨le_rfl, h⟩ (by omega)
  rintro b o' ⟨ho, hlen⟩
  refine (hbody b o' ho hlen).withEq.mono ?_
  intro r e heq
  refine ⟨?_, fun _ _ => trivial, fun _ _ => trivial⟩
  rintro b' rfl
  have := hforward heq
  omega

theorem validTags_halts {depth o : Nat} (h : o ≤ data.length) : Halts (validTags data depth) o := by
  refine halts_loop h (fun b o' _ hlen => tagTurn_halts hlen) ?_ depth
  intro b b' o' e hturn
  rcases tagTurn_eq_ok hturn with ⟨hr, -⟩ | ⟨ai, num, -, head⟩
  · cases hr
  · exact ⟨head.lt, head.fits⟩

theorem validTags_le {depth o d e : Nat} (h : validTags data depth o = some (.ok d, e))
    (ho : o ≤ data.length) : o ≤ e ∧ e ≤ data.length := by
  obtain ⟨n, locals, starts, -, rfl, hstep, hlast⟩ := loop_eq_ok h
  have hturns : ∀ i < n, starts i < starts (i + 1) ∧ starts (i + 1) ≤ data.length := by
    intro i hi
    rcases tagTurn_eq_ok (hstep i hi) with ⟨hr, -⟩ | ⟨ai, num, -, head⟩
    · cases hr
    · exact ⟨head.lt, head.fits⟩
  rcases tagTurn_eq_ok hlast with ⟨-, rfl⟩ | ⟨_, _, hr, -⟩
  · have hmono := starts_mono (fun i hi => (hturns i hi).1) (Nat.zero_le n) le_rfl
    exact ⟨by omega, starts_le (fun i hi => (hturns i hi).2) ho⟩
  · cases hr

section Recursion

variable {recur : Nat → Reader Nat} {o : Nat}
  (hrecur : ∀ {depth o d e : Nat}, recur depth o = some (.ok d, e) → Item data o e)
  (hhalts : ∀ depth o', o ≤ o' → o' ≤ data.length → Halts (recur depth) o')
include hrecur hhalts

theorem validIndefiniteString_halts {t depth : Nat} (ht : t = 2 ∨ t = 3) (h : o ≤ data.length) :
    Halts (validIndefiniteString data recur t depth) o := by
  refine halts_loop h ?_ ?_ depth
  · intro b o' ho hlen
    refine (validBreak_halts hlen).bind_of_eq ?_ fun _ _ _ => trivial
    intro stop e hbreak
    rcases validBreak_eq_ok hbreak with ⟨rfl, -⟩ | ⟨rfl, rfl, hlt⟩
    · exact halts_pure _ _
    · rw [if_neg Bool.false_ne_true]
      obtain ⟨b, hb, hpeek⟩ := peek_ends hlt
      refine Ends.after hpeek ?_
      split_ifs
      · exact halts_fail _ _
      · exact halts_fail _ _
      · refine (hhalts _ _ ho hlen).bind ?_ fun _ _ _ => trivial
        intro _ _ _
        exact halts_pure _ _
  · intro b b' o' e hturn
    rcases stringTurn_eq_ok hrecur ht hturn with ⟨hr, -⟩ | ⟨_, -, hchunk⟩
    · cases hr
    · exact ⟨hchunk.lt, hchunk.le⟩

theorem validIndefiniteArrayOrMap_halts {t depth : Nat} (h : o ≤ data.length) :
    Halts (validIndefiniteArrayOrMap data recur t depth) o := by
  refine Ends.bind (m := fun _ _ => True) (halts_loop h ?_ ?_ _) ?_ fun _ _ _ => trivial
  · intro b o' ho hlen
    refine (validBreak_halts hlen).bind_of_eq ?_ fun _ _ _ => trivial
    intro stop e hbreak
    rcases validBreak_eq_ok hbreak with ⟨rfl, -⟩ | ⟨rfl, rfl, -⟩
    · exact halts_pure _ _
    · rw [if_neg Bool.false_ne_true]
      refine (hhalts _ _ ho hlen).bind ?_ fun _ _ _ => trivial
      intro _ _ _
      dsimp only
      split
      · exact halts_fail _ _
      · split
        · exact halts_fail _ _
        · exact halts_pure _ _
  · intro b b' o' e hturn
    rcases itemTurn_eq_ok hrecur hturn with ⟨hr, -⟩ | ⟨_, -, hitem, -⟩
    · cases hr
    · exact hitem.bounds
  · rintro ⟨maxDepth, i⟩ e _
    dsimp only
    split_ifs
    · exact halts_fail _ _
    · exact halts_pure _ _

theorem validItems_halts {t val depth : Nat} (h : o ≤ data.length) :
    Halts (validItems recur t val depth) o := by
  rw [validItems, times_times]
  refine Ends.times (I := fun _ _ o' => o ≤ o' ∧ o' ≤ data.length) ?_ (fun _ _ _ => trivial)
    ⟨le_rfl, h⟩
  rintro i _ b o' ⟨ho, hlen⟩
  refine (hhalts depth o' ho hlen).bind_of_eq ?_ fun _ _ _ => ⟨by simp, fun _ _ => trivial⟩
  intro d e hrec
  have hitem := (hrecur hrec).bounds
  exact .of_eq rfl ⟨fun _ _ => by omega, fun _ _ => trivial⟩

end Recursion

/-- The validator returns, as long as it may recurse once for every byte. -/
theorem validInternal_halts {fuel depth o : Nat} (h : o ≤ data.length)
    (hfuel : data.length - o < fuel) : Halts (validInternal data fuel depth) o := by
  induction fuel generalizing depth o with
  | zero => omega
  | succ fuel ih =>
      refine (validHead_halts h).bind_of_eq ?_ fun _ _ _ => trivial
      rintro ⟨t, ai, val⟩ stop hhead
      obtain ⟨head, -⟩ := validHead_eq_ok hhead
      have hlt := head.lt
      have hfits := head.fits
      have hhalts : ∀ depth o', stop ≤ o' → o' ≤ data.length →
          Halts (validInternal data fuel depth) o' := by
        intro depth o' ho hlen
        exact ih hlen (by omega)
      dsimp only
      split_ifs with hstring harray htag
      · unfold validString
        split_ifs
        · exact validIndefiniteString_halts validInternal_item hhalts hstring hfits
        · exact halts_fail _ _
        · refine Ends.after rfl ?_
          split_ifs
          · exact halts_fail _ _
          · exact Ends.after rfl (halts_pure _ _)
      · unfold validArrayOrMap
        dsimp only
        split_ifs
        · exact halts_fail _ _
        · exact validIndefiniteArrayOrMap_halts validInternal_item hhalts hfits
        · exact halts_fail _ _
        · exact halts_fail _ _
        · exact halts_fail _ _
        · exact validItems_halts validInternal_item hhalts hfits
      · refine (validTags_halts hfits).bind_of_eq ?_ fun _ _ _ => trivial
        intro depth' o' htags
        have hle := validTags_le htags hfits
        exact hhalts depth' o' hle.1 hle.2
      · exact halts_pure _ _

end Total

end DirtybirdMiner.Args.WellFormed
