import DirtybirdMiner.Args.Arguments
import DirtybirdMiner.Args.WellFormed

/-!
Where the parser stops: on a well-formed item every function of the second phase
returns, with a value or an error, at the end of the item.
-/

namespace DirtybirdMiner.Args.Extents

open DirtybirdMiner.Lib
open DirtybirdMiner.Lib.Bytes
open DirtybirdMiner.Lib.Buffers
open DirtybirdMiner.Lib.Programs
open DirtybirdMiner.Lib.Programs.Prog
open DirtybirdMiner.Lib.Utf8
open DirtybirdMiner.Args.Times
open DirtybirdMiner.Args.Validator
open DirtybirdMiner.Args.Parser
open DirtybirdMiner.Args.Arguments
open DirtybirdMiner.Args.WellFormed

variable {data : List UInt8}

/-- The program started at the first offset returns, and stops at the second. -/
abbrev EndsAt {α : Type} (p : Reader α) (o e : Nat) : Prop := Ends p o fun _ s => s = e

theorem endsAt_pure {α : Type} (a : α) (e : Nat) : EndsAt (pure a) e e := .of_eq rfl rfl

theorem endsAt_fail {α : Type} (m : Message) (e : Nat) : EndsAt (fail m : Reader α) e e :=
  .of_eq rfl rfl

theorem EndsAt.then {α β : Type} {p : Reader α} {f : α → Reader β} {o e : Nat} (h : EndsAt p o e)
    (hf : ∀ a, EndsAt (f a) e e) : EndsAt (p >>= f) o e := by
  refine Ends.bind h ?_ fun _ _ hs => hs
  rintro a s rfl
  exact hf a

section Loops

variable {β : Type} {starts : Nat → Nat} {n : Nat}

/-- Turns that go forward are fewer than the bytes. -/
theorem turns_lt (hmono : ∀ i < n, starts i < starts (i + 1)) {e : Nat} (hle : starts n ≤ e)
    (he : e ≤ data.length) : n < data.length + 1 := by
  have := starts_mono hmono (Nat.zero_le n) le_rfl
  omega

theorem untilBreak_of_turns {body : β → Reader β} {l : Nat → β}
    (hmono : ∀ i < n, starts i < starts (i + 1))
    (hno : ∀ i < n, foundBreak data (starts i) = some (.ok false, starts i))
    (hbreak : data[starts n]? = some 0xff)
    (hbody : ∀ i < n, body (l i) (starts i) = some (.ok (l (i + 1)), starts (i + 1))) :
    untilBreak data body (l 0) (starts 0) = some (.ok (l n), starts n + 1) := by
  have hlt := (List.getElem?_eq_some_iff.mp hbreak).1
  refine loop_of_turns ?_ ?_ (turns_lt hmono hlt.le le_rfl)
  · intro i hi
    rw [bind_ok (hno i hi), if_neg Bool.false_ne_true, bind_ok (hbody i hi)]
    rfl
  · rw [bind_ok (foundBreak_of_break hbreak)]
    rfl

/-- A loop up to the break code with turns that may fail, if they then stop behind it. -/
theorem untilBreak_ends {body : β → Reader β} {I : β → Prop}
    {post : Except Message β → Nat → Prop} (hmono : ∀ i < n, starts i < starts (i + 1))
    (hno : ∀ i < n, foundBreak data (starts i) = some (.ok false, starts i))
    (hbreak : data[starts n]? = some 0xff)
    (hbody : ∀ i < n, ∀ b, I b → Ends (body b) (starts i) fun r s =>
      (∀ b', r = .ok b' → s = starts (i + 1) ∧ I b') ∧ ∀ m, r = .error m → post (.error m) s)
    (hpost : ∀ b, I b → post (.ok b) (starts n + 1)) {b : β} (hb : I b) :
    Ends (untilBreak data body b) (starts 0) post := by
  have hlt := (List.getElem?_eq_some_iff.mp hbreak).1
  refine Ends.loop (I := fun b s => I b ∧ ∃ i ≤ n, s = starts i)
    (m := fun _ s => data.length - s) ?_ ⟨hb, 0, Nat.zero_le n, rfl⟩ (by omega)
  rintro b s ⟨hinv, i, hi, rfl⟩
  rcases Nat.lt_or_eq_of_le hi with hlt' | rfl
  · refine Ends.after (hno i hlt') ?_
    rw [if_neg Bool.false_ne_true]
    refine (hbody i hlt' b hinv).bind ?_ fun m s h => ⟨by simp, by simp, fun m' hm => ?_⟩
    · intro b' s h
      obtain ⟨rfl, hinv'⟩ := h.1 b' rfl
      refine .of_eq rfl ⟨?_, by simp, by simp⟩
      intro b'' hb''
      cases hb''
      have hstep := hmono i hlt'
      have hrest := starts_mono hmono (i := i + 1) hlt' le_rfl
      exact ⟨⟨hinv', i + 1, hlt', rfl⟩, by omega⟩
    · cases hm
      exact h.2 m rfl
  · refine Ends.after (foundBreak_of_break hbreak) ?_
    refine .of_eq rfl ⟨by simp, ?_, by simp⟩
    intro b' hb'
    cases hb'
    exact hpost b hinv

theorem noMore_of_lt {ai val e i : Nat} (hi : i < n)
    (hno : foundBreak data (starts i) = some (.ok false, starts i))
    (hclosed : Closed data ai val n (starts n) e) :
    noMore data ai val i (starts i) = some (.ok false, starts i) := by
  unfold noMore
  rcases hclosed with ⟨hai, rfl, rfl⟩ | ⟨rfl, -, rfl⟩
  · rw [if_pos hai, decide_eq_false (by omega)]
    rfl
  · simpa using hno

theorem noMore_of_closed {ai val e last : Nat} (hclosed : Closed data ai val n last e) :
    noMore data ai val n last = some (.ok true, e) := by
  unfold noMore
  rcases hclosed with ⟨hai, rfl, rfl⟩ | ⟨rfl, hbreak, rfl⟩
  · rw [if_pos hai, decide_eq_true le_rfl]
    rfl
  · simpa using foundBreak_of_break hbreak

theorem items_of_turns {ai val e : Nat} {body : β → Reader β} {l : Nat → β}
    (hmono : ∀ i < n, starts i < starts (i + 1))
    (hno : ∀ i < n, foundBreak data (starts i) = some (.ok false, starts i))
    (hclosed : Closed data ai val n (starts n) e) (hlast : starts n ≤ data.length)
    (hbody : ∀ i < n, body (l i) (starts i) = some (.ok (l (i + 1)), starts (i + 1))) :
    items data ai val body (l 0) (starts 0) = some (.ok (l n), e) := by
  refine loop_of_turns (l := fun i => (i, l i)) ?_ ?_ (turns_lt hmono le_rfl hlast)
  · intro i hi
    rw [bind_ok (noMore_of_lt hi (hno i hi) hclosed), if_neg Bool.false_ne_true,
      bind_ok (hbody i hi)]
    rfl
  · rw [bind_ok (noMore_of_closed hclosed)]
    rfl

/-- A loop over items whose turns all go through and keep an invariant. -/
theorem items_ends {ai val e : Nat} {body : β → Reader β} (inv : Nat → β → Prop)
    (hmono : ∀ i < n, starts i < starts (i + 1))
    (hno : ∀ i < n, foundBreak data (starts i) = some (.ok false, starts i))
    (hclosed : Closed data ai val n (starts n) e) (hlast : starts n ≤ data.length)
    (hbody : ∀ i < n, ∀ b, inv i b →
      ∃ b', body b (starts i) = some (.ok b', starts (i + 1)) ∧ inv (i + 1) b')
    {b : β} (hb : inv 0 b) :
    ∃ b', items data ai val body b (starts 0) = some (.ok b', e) ∧ inv n b' := by
  have hnext : ∀ i b, ∃ b', i < n → inv i b →
      body b (starts i) = some (.ok b', starts (i + 1)) ∧ inv (i + 1) b' := by
    intro i b
    by_cases hi : i < n ∧ inv i b
    · obtain ⟨b', hb'⟩ := hbody i hi.1 b hi.2
      exact ⟨b', fun _ _ => hb'⟩
    · exact ⟨b, fun hlt hinv => absurd ⟨hlt, hinv⟩ hi⟩
  choose next hnext using hnext
  let locals : Nat → β := fun i => Nat.rec b (fun i b => next i b) i
  have hinv : ∀ i ≤ n, inv i (locals i) := by
    intro i hi
    induction i with
    | zero => exact hb
    | succ i ih => exact (hnext i (locals i) hi (ih (by omega))).2
  exact ⟨locals n, items_of_turns hmono hno hclosed hlast fun i hi =>
    (hnext i (locals i) hi (hinv i hi.le)).1, hinv n le_rfl⟩

end Loops

section Skip

theorem skip_of_item {fuel o e : Nat} (h : Item data o e) (hfuel : e ≤ o + fuel) :
    skip data fuel o = some (.ok (), e) := by
  induction fuel generalizing o e with
  | zero =>
      have := h.lt
      omega
  | succ fuel ih =>
      -- every part of the item starts behind its head
      have hpart : ∀ {o' e'}, o < o' → e' ≤ e → Item data o' e' →
          skip data fuel o' = some (.ok (), e') := by
        intro o' e' ho he hitem
        exact ih hitem (by omega)
      have hrow : ∀ {n} {starts : Nat → Nat} {last}, o < starts 0 → starts n ≤ last → last ≤ e →
          (∀ i < n, Item data (starts i) (starts (i + 1))) →
          ∀ i < n, skip data fuel (starts i) = some (.ok (), starts (i + 1)) := by
        intro n starts last ho hn hlast hitems i hi
        have hmono := starts_mono (fun i hi => (hitems i hi).lt) (Nat.zero_le i) hi.le
        have hrest := starts_mono (fun i hi => (hitems i hi).lt) (i := i + 1) hi le_rfl
        exact hpart (by omega) (by omega) (hitems i hi)
      rw [skip]
      cases h with
      | atom head major definite =>
          rw [bind_ok head.getHead]
          dsimp only
          rw [if_neg (by omega), if_neg (by omega), if_neg (by omega), if_neg (by omega),
            if_neg (by omega)]
          rfl
      | chunk major chunk =>
          obtain ⟨ai, val, stop, head, hai, rfl, hle⟩ := chunk
          rw [bind_ok head.getHead]
          dsimp only
          rw [if_neg (by omega), if_pos major]
          rfl
      | chunks head major chunks stop =>
          rw [bind_ok head.getHead]
          dsimp only
          rw [if_pos (by omega)]
          have hitems := fun i hi => Item.chunk major (chunks i hi)
          exact untilBreak_of_turns (l := fun _ => ()) (fun i hi => (hitems i hi).lt)
            (fun i hi => (hitems i hi).foundBreak) stop
            (hrow head.lt le_rfl (by omega) hitems)
      | array head items closed =>
          rw [bind_ok head.getHead]
          dsimp only
          have hturns := hrow head.lt closed.le le_rfl items
          rcases closed with ⟨hai, rfl, rfl⟩ | ⟨rfl, hbreak, rfl⟩
          · rw [if_neg (by omega), if_neg (by omega), if_pos rfl]
            exact times_of_turns (l := fun _ => ()) hturns
          · rw [if_pos (by omega)]
            exact untilBreak_of_turns (l := fun _ => ()) (fun i hi => (items i hi).lt)
              (fun i hi => (items i hi).foundBreak) hbreak hturns
      | map head items closed few =>
          rw [bind_ok head.getHead]
          dsimp only
          have hturns := hrow head.lt closed.le le_rfl items
          rcases closed with ⟨hai, rfl, rfl⟩ | ⟨rfl, hbreak, rfl⟩
          · rw [if_neg (by omega), if_neg (by omega), if_neg (by omega), if_pos rfl,
              min_eq_left (by unfold maxMapPairs at few; omega), Nat.mul_comm]
            exact times_of_turns (l := fun _ => ()) hturns
          · rw [if_pos (by omega)]
            exact untilBreak_of_turns (l := fun _ => ()) (fun i hi => (items i hi).lt)
              (fun i hi => (items i hi).foundBreak) hbreak hturns
      | tag head content =>
          rw [bind_ok head.getHead]
          dsimp only
          rw [if_neg (by omega), if_neg (by omega), if_neg (by omega), if_neg (by omega),
            if_pos rfl]
          exact hpart head.lt le_rfl content

theorem skipItem_of_item {o e : Nat} (h : Item data o e) : skipItem data o = some (.ok (), e) := by
  have := h.le
  exact skip_of_item h (by omega)

end Skip

section Strings

variable {t o e : Nat}

theorem Ends.exists_ok {x : Reader β} {o e : Nat}
    (h : Ends x o fun r s => s = e ∧ ∃ b, r = .ok b) : ∃ b, x o = some (.ok b, e) := by
  obtain ⟨r, s, heq, rfl, b, rfl⟩ := h
  exact ⟨b, heq⟩

theorem parseByteString_of_strings (h : Strings data t o e) (ht : t = 2 ∨ t = 3) :
    ∃ b, parseByteString data o = some (.ok b, e) := by
  rcases h with chunk | ⟨val, n, starts, head, chunks, stop, rfl⟩
  · obtain ⟨ai, val, stop, hhead, hai, htake⟩ := chunk.take
    refine ⟨slice data stop val, ?_⟩
    rw [parseByteString, bind_ok hhead]
    dsimp only
    rw [if_pos hai, htake]
  · rw [parseByteString, bind_ok head.getHead]
    dsimp only
    rw [if_neg (by simp)]
    refine Ends.exists_ok (untilBreak_ends (I := fun _ => True) (fun i hi => (chunks i hi).lt)
      (fun i hi => (chunks i hi).foundBreak ht) stop ?_ ?_ trivial)
    · intro i hi b _
      obtain ⟨ai, val, stop, hhead, -, htake⟩ := (chunks i hi).take
      exact Ends.after hhead (Ends.after htake (.of_eq rfl ⟨by simp, by simp⟩))
    · intro b _
      exact ⟨rfl, b, rfl⟩

theorem parseTextString_endsAt (h : Strings data t o e) (ht : t = 2 ∨ t = 3) :
    EndsAt (parseTextString data) o e := by
  rcases h with chunk | ⟨val, n, starts, head, chunks, stop, rfl⟩
  · obtain ⟨ai, val, stop, hhead, hai, htake⟩ := chunk.take
    refine Ends.after hhead ?_
    dsimp only
    rw [if_pos hai]
    refine Ends.after htake ?_
    cases fromUtf8 (slice data stop val) with
    | some s => exact endsAt_pure _ _
    | none => exact endsAt_fail _ _
  · refine Ends.after head.getHead ?_
    dsimp only
    rw [if_neg (by simp)]
    refine Ends.bind (m := fun r s => s = starts n + 1 ∧ ∀ b, r = .ok b → valid b = true)
      (untilBreak_ends (I := fun b => valid b = true) (fun i hi => (chunks i hi).lt)
        (fun i hi => (chunks i hi).foundBreak ht) stop ?_ ?_ rfl) ?_ ?_
    · intro i hi b hb
      obtain ⟨ai, val, o', hhead, -, htake⟩ := (chunks i hi).take
      refine Ends.after hhead (Ends.after htake ?_)
      split
      · -- the chunks that are left are skipped
        have hrest : untilBreak data (fun _ => skipItem data) () (starts (i + 1)) =
            some (.ok (), starts n + 1) := by
          have hn : i + 1 + (n - (i + 1)) = n := by omega
          have hturns : untilBreak data (fun _ => skipItem data) () (starts (i + 1 + 0)) =
              some (.ok (), starts (i + 1 + (n - (i + 1))) + 1) :=
            @untilBreak_of_turns data Unit (fun j => starts (i + 1 + j)) (n - (i + 1))
              (fun _ => skipItem data) (fun _ => ())
              (fun j hj => (chunks (i + 1 + j) (by omega)).lt)
              (fun j hj => (chunks (i + 1 + j) (by omega)).foundBreak ht)
              (by rw [hn]; exact stop)
              (fun j hj => skipItem_of_item (.chunk ht (chunks (i + 1 + j) (by omega))))
          simpa only [hn, Nat.add_zero] using hturns
        exact Ends.after hrest (.of_eq rfl ⟨by simp, fun m hm => ⟨rfl, by simp⟩⟩)
      · rename_i hvalid
        refine .of_eq rfl ⟨?_, by simp⟩
        intro b' hb'
        cases hb'
        have hx : valid (slice data o' val) = true := by
          unfold fromUtf8 at hvalid
          by_contra hx
          simp [hx] at hvalid
        exact ⟨rfl, valid_append hb hx⟩
    · intro b hb
      refine ⟨rfl, ?_⟩
      rintro b' hb'
      cases hb'
      exact hb
    · rintro b s ⟨rfl, hb⟩
      have hvalid : fromUtf8 b = some ⟨b, hb b rfl⟩ := by
        rw [fromUtf8, dif_pos (hb b rfl)]
      rw [hvalid]
      exact endsAt_pure _ _
    · rintro m s ⟨rfl, -⟩
      rfl

end Strings

section Tags

theorem stripSelfDescribed_of_item {o e : Nat} (h : Item data o e) :
    ∃ o', stripSelfDescribed data o = some (.ok (), o') ∧ o ≤ o' ∧ Item data o' e := by
  have hle := h.le
  have hlt := h.lt
  have hends : Ends (stripSelfDescribed data) o fun r o' =>
      r = .ok () ∧ o ≤ o' ∧ Item data o' e := by
    refine Ends.loop (I := fun _ o' => o ≤ o' ∧ Item data o' e)
      (m := fun _ o' => e - o') ?_ ⟨le_rfl, h⟩ (by omega)
    rintro _ o' ⟨ho, hitem⟩
    obtain ⟨t, ai, val, stop, head, -⟩ := hitem.head
    refine Ends.after head.nextMajor ?_
    split
    · exact .of_eq rfl ⟨by simp, fun _ _ => ⟨rfl, ho, hitem⟩, by simp⟩
    · rename_i ht
      refine Ends.after rfl (Ends.after head.getHead ?_)
      dsimp only
      split
      · exact Ends.after rfl (.of_eq rfl ⟨by simp, fun _ _ => ⟨rfl, ho, hitem⟩, by simp⟩)
      · rw [not_not] at ht
        subst ht
        obtain hcontent := hitem.content head
        have hstep := head.lt
        have hcontentLt := hcontent.lt
        exact .of_eq rfl ⟨fun _ _ => ⟨⟨by omega, hcontent⟩, by omega⟩, by simp, by simp⟩
  obtain ⟨r, o', heq, rfl, ho, hitem⟩ := hends
  exact ⟨o', heq, ho, hitem⟩

/-- The tags that mean something have the content they need. -/
def TagFits (data : List UInt8) (o : Nat) : Prop :=
  ∀ {ai num stop : Nat} {c : UInt8}, Head data o 6 ai num stop → data[stop]? = some c →
    validBuiltinTag num c = .ok ()

theorem checkBuiltinTag_ends {o e : Nat} (h : Item data o e) :
    Ends (checkBuiltinTag data) o fun r s =>
      (r = .ok () → s = o ∧ TagFits data o) ∧ ∀ m, r = .error m → s = e := by
  obtain ⟨t, ai, val, stop, head, -⟩ := h.head
  refine Ends.after head.nextMajor ?_
  split
  · rename_i ht
    subst ht
    have hcontent := h.content head
    obtain ⟨c, hc, hpeek⟩ := peek_ends (show stop < data.length by
      have := hcontent.lt
      have := hcontent.le
      omega)
    refine Ends.after rfl (Ends.after head.getHead (Ends.after hpeek ?_))
    split
    · exact Ends.after (skipItem_of_item hcontent) (.of_eq rfl ⟨by simp, fun _ _ => rfl⟩)
    · rename_i hfits
      refine .of_eq rfl ⟨fun _ => ⟨rfl, ?_⟩, by simp⟩
      intro ai' num' stop' c' head' hc'
      obtain ⟨-, -, rfl, rfl⟩ := head.unique head'
      rw [hc] at hc'
      cases hc'
      exact hfits
  · rename_i ht
    refine .of_eq rfl ⟨fun _ => ⟨rfl, ?_⟩, by simp⟩
    intro ai' num' stop' c' head'
    exact absurd (head.unique head').1 ht

/-- The content of a bignum is a byte string. -/
theorem TagFits.bignum {o ai num stop e : Nat} (h : TagFits data o)
    (head : Head data o 6 ai num stop) (content : Item data stop e) (hnum : num = 2 ∨ num = 3) :
    Strings data 2 stop e := by
  obtain ⟨t, ai', val', stop', head', -⟩ := content.head
  obtain ⟨c, hc, rfl, -⟩ := head'.byte
  have hfits := h head hc
  have ht : c.toNat / 32 = 2 := by
    by_contra ht
    unfold validBuiltinTag at hfits
    dsimp only at hfits
    rw [if_neg (by omega), if_neg (by omega), if_pos hnum, if_pos ht] at hfits
    cases hfits
  rw [ht] at head'
  exact content.strings head' (.inl rfl)

/-- What stands before the dispatch on the major type in every function: the
self-described tags and the check. -/
theorem prologue_ends {α : Type} {p : Reader α} {o e : Nat} (h : Item data o e)
    (hp : ∀ o', o ≤ o' → Item data o' e → TagFits data o' → EndsAt p o' e) :
    EndsAt (do
      stripSelfDescribed data
      checkBuiltinTag data
      p) o e := by
  obtain ⟨o', hstrip, ho, hitem⟩ := stripSelfDescribed_of_item h
  refine Ends.after hstrip ?_
  refine Ends.bind (checkBuiltinTag_ends hitem) ?_ fun m s h => h.2 m rfl
  intro _ s hs
  obtain ⟨rfl, hfits⟩ := hs.1 rfl
  exact hp s ho hitem hfits

end Tags

section Values

variable {parse : Bool → Reader Cval} {o e : Nat}

/-- The recursive call reads every item behind the offset. -/
def ReadsAfter (data : List UInt8) (parse : Bool → Reader Cval) (o e : Nat) : Prop :=
  ∀ {o' e' : Nat} (b : Bool), o < o' → e' ≤ e → Item data o' e' → EndsAt (parse b) o' e'

theorem parseNoting_of_item {o' e' : Nat} (hparse : ReadsAfter data parse o e) (ho : o < o')
    (he : e' ≤ e) (h : Item data o' e') (firstErr : Option Message) :
    ∃ b, parseNoting parse firstErr o' = some (.ok b, e') := by
  obtain ⟨r, s, heq, rfl⟩ := hparse true ho he h
  rw [parseNoting, bind_ok (attempt_of_eq heq)]
  cases r with
  | error m => exact ⟨_, rfl⟩
  | ok v => exact ⟨_, rfl⟩

theorem parsePair_of_items {o' mid e' : Nat} (hparse : ReadsAfter data parse o e) (ho : o < o')
    (he : e' ≤ e) (hkey : Item data o' mid) (hvalue : Item data mid e')
    (firstErr : Option Message) : ∃ b, parsePair data parse firstErr o' = some (.ok b, e') := by
  have hkeyLt := hkey.lt
  have hvalueLt := hvalue.lt
  obtain ⟨r, s, heq, rfl⟩ := hparse true ho (by omega) hkey
  rw [parsePair, bind_ok (attempt_of_eq heq)]
  cases r with
  | error m =>
      dsimp only
      rw [bind_ok (skipItem_of_item hvalue)]
      exact ⟨_, rfl⟩
  | ok k =>
      dsimp only
      split
      · rw [bind_ok (skipItem_of_item hvalue)]
        exact ⟨_, rfl⟩
      · exact parseNoting_of_item hparse (by omega) he hvalue firstErr

theorem closeWith_endsAt (v : Cval) (firstErr : Option Message) :
    EndsAt (closeWith v firstErr) e e := by
  cases firstErr with
  | some m => exact endsAt_fail _ _
  | none => exact endsAt_pure _ _

/-- Items of a head lie behind it. -/
theorem starts_between {n : Nat} {starts : Nat → Nat} {last : Nat}
    (hitems : ∀ i < n, Item data (starts i) (starts (i + 1))) (ho : o < starts 0)
    (hlast : starts n = last) {i j : Nat} (hij : i ≤ j) (hj : j ≤ n) :
    o < starts i ∧ starts j ≤ last := by
  have hmono := starts_mono (fun i hi => (hitems i hi).lt) (Nat.zero_le i) (by omega)
  have hrest := starts_mono (fun i hi => (hitems i hi).lt) hj le_rfl
  omega

theorem parseArray_endsAt {ai val n : Nat} {starts : Nat → Nat}
    (hparse : ReadsAfter data parse o e) (head : Head data o 4 ai val (starts 0))
    (hitems : ∀ i < n, Item data (starts i) (starts (i + 1)))
    (closed : Closed data ai val n (starts n) e) : EndsAt (parseArray data parse) o e := by
  have hlast : starts n ≤ data.length := starts_le (fun i hi => (hitems i hi).le) head.fits
  have hle := closed.le
  have hturn : ∀ i < n, ∀ b, ∃ b',
      parseNoting parse b (starts i) = some (.ok b', starts (i + 1)) := by
    intro i hi b
    have hbetween := starts_between hitems head.lt rfl (Nat.le_add_right i 1) hi
    exact parseNoting_of_item hparse hbetween.1 (by omega) (hitems i hi) b
  obtain ⟨b, hb, -⟩ := items_ends (fun _ _ => True) (fun i hi => (hitems i hi).lt)
    (fun i hi => (hitems i hi).foundBreak) closed hlast
    (fun i hi b _ => by simpa using hturn i hi b) trivial
  exact Ends.after head.getHead (Ends.after hb (closeWith_endsAt _ _))

/-- The pairs of a map, each of two items. -/
theorem pairs_ends {β : Type} {ai val n : Nat} {starts : Nat → Nat} {body : β → Reader β}
    (inv : Nat → β → Prop) (head : Head data o 5 ai val (starts 0))
    (hitems : ∀ i < 2 * n, Item data (starts i) (starts (i + 1)))
    (closed : Closed data ai val n (starts (2 * n)) e)
    (hbody : ∀ i < n, ∀ b, inv i b → o < starts (2 * i) → starts (2 * i + 2) ≤ e →
      ∃ b', body b (starts (2 * i)) = some (.ok b', starts (2 * i + 2)) ∧ inv (i + 1) b')
    {b : β} (hb : inv 0 b) :
    ∃ b', items data ai val body b (starts 0) = some (.ok b', e) ∧ inv n b' := by
  have hlast : starts (2 * n) ≤ data.length := starts_le (fun i hi => (hitems i hi).le) head.fits
  have hle := closed.le
  refine @items_ends data β (fun i => starts (2 * i)) n ai val e body inv ?_ ?_ closed hlast ?_ b hb
  · intro i hi
    have hkey := (hitems (2 * i) (by omega)).lt
    have hvalue := (hitems (2 * i + 1) (by omega)).lt
    exact hkey.trans hvalue
  · intro i hi
    exact (hitems (2 * i) (by omega)).foundBreak
  · intro i hi b hinv
    have hbetween := starts_between hitems head.lt rfl (Nat.le_add_right (2 * i) 2) (by omega)
    exact hbody i hi b hinv hbetween.1 (by omega)

theorem parseMap_endsAt {ai val n : Nat} {starts : Nat → Nat}
    (hparse : ReadsAfter data parse o e) (head : Head data o 5 ai val (starts 0))
    (hitems : ∀ i < 2 * n, Item data (starts i) (starts (i + 1)))
    (closed : Closed data ai val n (starts (2 * n)) e) : EndsAt (parseMap data parse) o e := by
  obtain ⟨b, hb, -⟩ := pairs_ends (fun _ _ => True) head hitems closed (fun i hi b _ ho he => by
    simpa using parsePair_of_items hparse ho he (hitems (2 * i) (by omega))
      (hitems (2 * i + 1) (by omega)) b) trivial
  exact Ends.after head.getHead (Ends.after hb (closeWith_endsAt _ _))

theorem parseToTime_endsAt {ai num stop : Nat} (hparse : ReadsAfter data parse o e)
    (head : Head data o 6 ai num stop) (content : Item data stop e) :
    EndsAt (parseToTime data parse) o e := by
  refine Ends.after head.getHead ?_
  refine EndsAt.then (hparse false head.lt le_rfl content) fun v => ?_
  cases v with
  | u64 c => exact endsAt_pure _ _
  | i64 c => exact endsAt_pure _ _
  | f64 f => exact endsAt_pure _ _
  | text s =>
      dsimp only
      split
      · exact endsAt_pure _ _
      · exact endsAt_fail _ _
  | _ => exact endsAt_fail _ _

theorem parseTag_endsAt {ai num stop : Nat} (hparse : ReadsAfter data parse o e)
    (hfits : TagFits data o) (head : Head data o 6 ai num stop) (content : Item data stop e) :
    EndsAt (parseTag data parse) o e := by
  refine Ends.after rfl (Ends.after head.getHead ?_)
  dsimp only
  split_ifs with htime hbignum
  · refine Ends.after rfl ?_
    exact EndsAt.then (parseToTime_endsAt hparse head content) fun _ => endsAt_pure _ _
  · obtain ⟨b, hb⟩ := parseByteString_of_strings (hfits.bignum head content hbignum) (.inl rfl)
    exact Ends.after hb (endsAt_pure _ _)
  · exact EndsAt.then (hparse false head.lt le_rfl content) fun _ => endsAt_pure _ _

theorem parsePrimitive_endsAt {t ai val : Nat} (head : Head data o t ai val e) :
    EndsAt (parsePrimitive data) o e := by
  refine Ends.after head.getHead ?_
  dsimp only
  split_ifs <;> exact endsAt_pure _ _

theorem parseItem_strings {t ai val stop : Nat} (head : Head data o t ai val stop)
    (ht : t = 2 ∨ t = 3) (h : Strings data t o e) : EndsAt (parseItem data parse) o e := by
  refine Ends.after head.nextMajor ?_
  rcases ht with rfl | rfl
  · rw [if_neg (by omega), if_neg (by omega), if_pos rfl]
    obtain ⟨b, hb⟩ := parseByteString_of_strings h (.inl rfl)
    exact Ends.after hb (endsAt_pure _ _)
  · rw [if_neg (by omega), if_neg (by omega), if_neg (by omega), if_pos rfl]
    exact EndsAt.then (parseTextString_endsAt h (.inr rfl)) fun _ => endsAt_pure _ _

theorem parseItem_endsAt (hparse : ReadsAfter data parse o e) (hfits : TagFits data o)
    (h : Item data o e) : EndsAt (parseItem data parse) o e := by
  cases id h with
  | atom head major definite =>
      refine Ends.after head.nextMajor ?_
      rcases major with rfl | rfl | rfl
      · rw [if_pos rfl]
        exact Ends.after head.getHead (endsAt_pure _ _)
      · rw [if_neg (by omega), if_pos rfl]
        refine Ends.after head.getHead ?_
        dsimp only
        split_ifs <;> exact endsAt_pure _ _
      · simp only [show ¬(7 = 0) by omega, show ¬(7 = 1) by omega, show ¬(7 = 2) by omega,
          show ¬(7 = 3) by omega, show ¬(7 = 4) by omega, show ¬(7 = 5) by omega,
          show ¬(7 = 6) by omega, if_false]
        exact parsePrimitive_endsAt head
  | chunk major chunk =>
      obtain ⟨ai, val, stop, head, -⟩ := id chunk
      exact parseItem_strings head major (.inl chunk)
  | chunks head major => exact parseItem_strings head major (h.strings head major)
  | array head hitems closed =>
      refine Ends.after head.nextMajor ?_
      exact parseArray_endsAt hparse head hitems closed
  | map head hitems closed =>
      refine Ends.after head.nextMajor ?_
      exact parseMap_endsAt hparse head hitems closed
  | tag head content =>
      refine Ends.after head.nextMajor ?_
      exact parseTag_endsAt hparse hfits head content

end Values

section Functions

theorem parse_endsAt {fuel o e : Nat} (b : Bool) (h : Item data o e) (hfuel : e ≤ o + fuel) :
    EndsAt (parse data fuel b) o e := by
  induction fuel generalizing o e b with
  | zero =>
      have := h.lt
      omega
  | succ fuel ih =>
      have hparse : ∀ o', o ≤ o' → ReadsAfter data (parse data fuel) o' e := by
        intro o' ho o'' e' b ho' he' hitem
        exact ih b hitem (by omega)
      rw [parse]
      cases b with
      | true => exact prologue_ends h fun o' ho hitem hfits =>
          parseItem_endsAt (hparse o' ho) hfits hitem
      | false =>
          rw [if_neg Bool.false_ne_true]
          refine Ends.bind (checkBuiltinTag_ends h) ?_ fun m s h => h.2 m rfl
          intro _ s hs
          obtain ⟨rfl, hfits⟩ := hs.1 rfl
          exact parseItem_endsAt (hparse s le_rfl) hfits h

theorem parseValue_endsAt {fuel o e : Nat} (h : Item data o e) (hfuel : e ≤ o + fuel) :
    EndsAt (parseValue data fuel) o e := by
  obtain ⟨o', hstrip, ho, hitem⟩ := stripSelfDescribed_of_item h
  exact Ends.after hstrip (parse_endsAt false hitem (by omega))

variable {α : Type} {goType : String} {o e : Nat}

theorem rejectPositive_endsAt {t ai val : Nat} (head : Head data o t ai val e) :
    EndsAt (rejectPositive data goType : Reader α) o e :=
  Ends.after head.getHead (endsAt_fail _ _)

theorem rejectNegative_endsAt {t ai val : Nat} (head : Head data o t ai val e) :
    EndsAt (rejectNegative data goType : Reader α) o e := by
  refine Ends.after head.getHead ?_
  dsimp only
  split_ifs <;> exact endsAt_fail _ _

theorem rejectSkipped_endsAt {cborType : String} (h : Item data o e) :
    EndsAt (rejectSkipped data cborType goType : Reader α) o e :=
  Ends.after (skipItem_of_item h) (endsAt_fail _ _)

theorem rejectBytes_endsAt {t : Nat} (h : Strings data t o e) (ht : t = 2 ∨ t = 3) :
    EndsAt (rejectBytes data goType : Reader α) o e := by
  obtain ⟨b, hb⟩ := parseByteString_of_strings h ht
  exact Ends.after hb (endsAt_fail _ _)

theorem rejectPositiveBignum_endsAt {t : Nat} (h : Strings data t o e) (ht : t = 2 ∨ t = 3) :
    EndsAt (rejectPositiveBignum data goType : Reader α) o e := by
  obtain ⟨b, hb⟩ := parseByteString_of_strings h ht
  exact Ends.after hb (endsAt_fail _ _)

theorem rejectNegativeBignum_endsAt {t : Nat} (h : Strings data t o e) (ht : t = 2 ∨ t = 3) :
    EndsAt (rejectNegativeBignum data goType : Reader α) o e := by
  obtain ⟨b, hb⟩ := parseByteString_of_strings h ht
  exact Ends.after hb (endsAt_fail _ _)

theorem parseKey_endsAt {fuel o e : Nat} (slot : Text) (h : Item data o e)
    (hfuel : e ≤ o + fuel) : EndsAt (parseKey data fuel slot) o e := by
  induction fuel generalizing o e with
  | zero =>
      have := h.lt
      omega
  | succ fuel ih =>
      rw [parseKey]
      refine prologue_ends h fun o' ho hitem hfits => ?_
      cases id hitem with
      | atom head major definite =>
          refine Ends.after head.nextMajor ?_
          rcases major with rfl | rfl | rfl
          · exact rejectPositive_endsAt head
          · exact rejectNegative_endsAt head
          · refine Ends.after head.getHead ?_
            dsimp only
            split_ifs
            · exact endsAt_pure _ _
            · exact endsAt_fail _ _
      | chunk major chunk =>
          obtain ⟨ai, val, stop, head, -⟩ := id chunk
          refine Ends.after head.nextMajor ?_
          rcases major with rfl | rfl
          · exact rejectBytes_endsAt (.inl chunk) (.inl rfl)
          · exact parseTextString_endsAt (.inl chunk) (.inr rfl)
      | chunks head major =>
          have hstrings := hitem.strings head major
          refine Ends.after head.nextMajor ?_
          rcases major with rfl | rfl
          · exact rejectBytes_endsAt hstrings (.inl rfl)
          · exact parseTextString_endsAt hstrings (.inr rfl)
      | array head =>
          refine Ends.after head.nextMajor ?_
          exact rejectSkipped_endsAt hitem
      | map head =>
          refine Ends.after head.nextMajor ?_
          exact rejectSkipped_endsAt hitem
      | tag head content =>
          refine Ends.after head.nextMajor (Ends.after head.getHead ?_)
          dsimp only
          have hlt := head.lt
          split_ifs with h2 h3
          · exact rejectPositiveBignum_endsAt (hfits.bignum head content (.inl h2)) (.inl rfl)
          · exact rejectNegativeBignum_endsAt (hfits.bignum head content (.inr h3)) (.inl rfl)
          · exact ih content (by omega)

theorem parseEntry_of_items {fuel o mid e : Nat} (hkey : Item data o mid)
    (hvalue : Item data mid e) (hfuel : e ≤ o + fuel) (s : Pairs) :
    ∃ s', parseEntry data fuel s o = some (.ok s', e) ∧
      (s'.entries = s.entries ∨ ∃ k v, s'.entries = Entries.insert s.entries k v) := by
  have hkeyLt := hkey.lt
  have hvalueLt := hvalue.lt
  obtain ⟨r, o', heq, rfl⟩ := parseKey_endsAt s.keySlot hkey (by omega : _ ≤ _ + fuel)
  rw [parseEntry, bind_ok (attempt_of_eq heq)]
  cases r with
  | error m =>
      dsimp only
      rw [bind_ok (skipItem_of_item hvalue)]
      exact ⟨_, rfl, .inl rfl⟩
  | ok keySlot =>
      dsimp only
      obtain ⟨r, e', hvalueEq, rfl⟩ := parseValue_endsAt hvalue (by omega : _ ≤ _ + fuel)
      rw [bind_ok (attempt_of_eq hvalueEq)]
      cases r with
      | error m => exact ⟨_, rfl, .inl rfl⟩
      | ok v => exact ⟨_, rfl, .inr ⟨_, _, rfl⟩⟩

/-- What the decoded map is like. -/
structure Orderly (entries : List (Text × Cval)) : Prop where
  nodup : (entries.map Prod.fst).Nodup
  few : entries.length ≤ maxMapPairs

theorem parseMapToLocalmap_endsAt {fuel ai val n : Nat} {starts : Nat → Nat}
    (head : Head data o 5 ai val (starts 0))
    (hitems : ∀ i < 2 * n, Item data (starts i) (starts (i + 1)))
    (closed : Closed data ai val n (starts (2 * n)) e) (hfew : n ≤ maxMapPairs)
    (hfuel : e ≤ o + 1 + fuel) :
    Ends (parseMapToLocalmap data fuel) o fun r s => s = e ∧ ∀ m, r = .ok m → Orderly m := by
  let inv : Nat → Pairs → Prop := fun i s =>
    (s.entries.map Prod.fst).Nodup ∧ s.entries.length ≤ i
  have hentry : ∀ i < n, ∀ s, inv i s → o < starts (2 * i) → starts (2 * i + 2) ≤ e →
      ∃ s', parseEntry data fuel s (starts (2 * i)) = some (.ok s', starts (2 * i + 2)) ∧
        inv (i + 1) s' := by
    intro i hi s hinv ho he
    have hfuel' : starts (2 * i + 2) ≤ starts (2 * i) + fuel := by omega
    obtain ⟨s', heq, hentries⟩ := parseEntry_of_items (hitems (2 * i) (by omega))
      (hitems (2 * i + 1) (by omega)) hfuel' s
    refine ⟨s', heq, ?_⟩
    rcases hentries with hsame | ⟨k, v, hinsert⟩
    · simp only [inv, hsame]
      exact ⟨hinv.1, by omega⟩
    · simp only [inv, hinsert]
      exact ⟨Entries.insert_keys_nodup hinv.1 k v, (Entries.insert_length_le _ k v).trans
        (Nat.succ_le_succ hinv.2)⟩
  obtain ⟨s, hs, hinv⟩ := pairs_ends inv head hitems closed hentry
    (show inv 0 {} from ⟨List.nodup_nil, le_rfl⟩)
  refine Ends.after head.getHead (Ends.after hs ?_)
  cases s.firstErr with
  | some m => exact .of_eq rfl ⟨rfl, fun _ h => nomatch h⟩
  | none =>
      refine .of_eq rfl ⟨rfl, ?_⟩
      rintro m ⟨⟩
      exact ⟨hinv.1, hinv.2.trans hfew⟩

theorem parseTopToMap_endsAt {fuel o e : Nat} (h : Item data o e) (hfuel : e ≤ o + fuel) :
    EndsAt (parseTopToMap data fuel) o e := by
  induction fuel generalizing o e with
  | zero =>
      have := h.lt
      omega
  | succ fuel ih =>
      rw [parseTopToMap]
      refine prologue_ends h fun o' ho hitem hfits => ?_
      cases id hitem with
      | atom head major definite =>
          refine Ends.after head.nextMajor ?_
          rcases major with rfl | rfl | rfl
          · exact rejectPositive_endsAt head
          · exact rejectNegative_endsAt head
          · refine Ends.after head.getHead ?_
            dsimp only
            split_ifs
            · exact endsAt_pure _ _
            · exact endsAt_fail _ _
      | chunk major chunk =>
          obtain ⟨ai, val, stop, head, -⟩ := id chunk
          refine Ends.after head.nextMajor ?_
          rcases major with rfl | rfl
          · exact rejectBytes_endsAt (.inl chunk) (.inl rfl)
          · exact EndsAt.then (parseTextString_endsAt (.inl chunk) (.inr rfl))
              fun _ => endsAt_fail _ _
      | chunks head major =>
          have hstrings := hitem.strings head major
          refine Ends.after head.nextMajor ?_
          rcases major with rfl | rfl
          · exact rejectBytes_endsAt hstrings (.inl rfl)
          · exact EndsAt.then (parseTextString_endsAt hstrings (.inr rfl)) fun _ => endsAt_fail _ _
      | array head =>
          refine Ends.after head.nextMajor ?_
          exact rejectSkipped_endsAt hitem
      | map head hitems closed few =>
          refine Ends.after head.nextMajor ?_
          exact (parseMapToLocalmap_endsAt head hitems closed few (by omega)).mono fun _ _ h => h.1
      | tag head content =>
          refine Ends.after head.nextMajor (Ends.after head.getHead ?_)
          dsimp only
          have hlt := head.lt
          split_ifs with h2 h3
          · exact rejectPositiveBignum_endsAt (hfits.bignum head content (.inl h2)) (.inl rfl)
          · exact rejectNegativeBignum_endsAt (hfits.bignum head content (.inr h3)) (.inl rfl)
          · exact ih content (by omega)

end Functions

section Panics

theorem keyName_of_ascii {k : Text} {c : UInt8} (hlast : k.bytes.getLast? = some c)
    (hc : c < 0x80) : ∃ name, keyName k = some name ∧ name.bytes = k.bytes.dropLast := by
  have hsplit := List.dropLast_append_getLast? c hlast
  have hvalid : valid k.bytes.dropLast := by
    apply valid_of_concat hc
    rw [hsplit]
    exact k.isValid
  exact ⟨⟨k.bytes.dropLast, hvalid⟩, by rw [keyName, fromUtf8, dif_pos hvalid], rfl⟩

theorem typeChars_ascii : ∀ c ∈ typeChars, c < 0x80 := by
  simp [typeChars]

theorem typeTexts_isSome : ∀ c ∈ typeChars, (typeTexts c).isSome := by
  simp [typeChars, typeTexts]

theorem readEntry_isSome (k : Text) (v : Cval) : (readEntry k v).isSome := by
  unfold readEntry
  split
  · rfl
  · rename_i hlen
    have hne : k.bytes ≠ [] := by
      intro hnil
      simp [hnil] at hlen
    obtain ⟨c, hlast⟩ : ∃ c, k.bytes.getLast? = some c :=
      ⟨_, List.getLast?_eq_some_getLast hne⟩
    rw [hlast, Option.bind_eq_bind, Option.bind_some]
    split
    · rfl
    · rename_i hchar
      rw [not_not] at hchar
      obtain ⟨name, hname, -⟩ := keyName_of_ascii hlast (typeChars_ascii c hchar)
      obtain ⟨texts, htexts⟩ := Option.isSome_iff_exists.mp (typeTexts_isSome c hchar)
      split
      · simp [rpcTypeErr, hname, htexts]
      · rfl
      · simp [hname]

theorem readEntries_isSome (localmap : List (Text × Cval)) : (readEntries localmap).isSome := by
  induction localmap with
  | nil => rfl
  | cons entry localmap ih =>
      obtain ⟨r, hr⟩ := Option.isSome_iff_exists.mp (readEntry_isSome entry.1 entry.2)
      obtain ⟨rs, hrs⟩ := Option.isSome_iff_exists.mp ih
      cases r with
      | error m => simp [readEntries, hr]
      | ok arg => cases rs <;> simp [readEntries, hr, hrs]

theorem cborUnmarshalLocalmap_isSome (data : List UInt8) :
    (cborUnmarshalLocalmap data).isSome := by
  unfold cborUnmarshalLocalmap
  split
  · rfl
  · obtain ⟨r, e, heq, -⟩ := @validInternal_halts data (data.length + 1) 0 0 (Nat.zero_le _)
      (by omega)
    rw [heq]
    cases r with
    | error m => rfl
    | ok d =>
        have hitem := validInternal_item heq
        have hle := hitem.le
        obtain ⟨r, e', htop, -⟩ := parseTopToMap_endsAt hitem (by omega : _ ≤ _ + (data.length + 1))
        simp [htop]

theorem unmarshalBinaryExact_isSome (data : List UInt8) : (unmarshalBinaryExact data).isSome := by
  obtain ⟨r, hr⟩ := Option.isSome_iff_exists.mp (cborUnmarshalLocalmap_isSome data)
  cases r with
  | error m => simp [unmarshalBinaryExact, hr]
  | ok localmap =>
      obtain ⟨rs, hrs⟩ := Option.isSome_iff_exists.mp (readEntries_isSome localmap)
      cases rs <;> simp [unmarshalBinaryExact, hr, hrs]

end Panics

/-- Where the validator stops, every function of the parser stops, whatever budget
above the length of the data it has; and no byte string makes the decoder panic. -/
theorem extents_agree (data : List UInt8) :
    (∀ fuel depth o d e : Nat, validInternal data fuel depth o = some (.ok d, e) →
      ∀ budget > data.length,
        (∃ r, skip data budget o = some (r, e)) ∧
        (∀ skipSelfDescribedTag, ∃ r, parse data budget skipSelfDescribedTag o = some (r, e)) ∧
        (∃ r, parseValue data budget o = some (r, e)) ∧
        (∀ slot, ∃ r, parseKey data budget slot o = some (r, e)) ∧
        ∃ r, parseTopToMap data budget o = some (r, e)) ∧
      unmarshalBinaryExact data ≠ none := by
  refine ⟨?_, Option.isSome_iff_ne_none.mp (unmarshalBinaryExact_isSome data)⟩
  intro fuel depth o d e hvalid budget hbudget
  have hitem := validInternal_item hvalid
  have hfuel : e ≤ o + budget := by
    have := hitem.le
    omega
  have hends : ∀ {α : Type} {p : Reader α}, EndsAt p o e → ∃ r, p o = some (r, e) := by
    rintro α p ⟨r, s, heq, rfl⟩
    exact ⟨r, heq⟩
  exact ⟨⟨_, skip_of_item hitem hfuel⟩, fun b => hends (parse_endsAt b hitem hfuel),
    hends (parseValue_endsAt hitem hfuel), fun slot => hends (parseKey_endsAt slot hitem hfuel),
    hends (parseTopToMap_endsAt hitem hfuel)⟩

end DirtybirdMiner.Args.Extents
