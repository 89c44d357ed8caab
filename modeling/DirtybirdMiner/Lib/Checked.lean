import Mathlib.Data.List.Induction
import Mathlib.Tactic.Common

/-!
Programs that may fail, written as `Option` computations: `none` stands for a
panic (an index out of range, an arithmetic overflow, a failed assertion) or
for a loop that used up its iteration budget.  `Returns` is total correctness,
and the loop combinators come with invariant rules for it.
-/

namespace DirtybirdMiner.Lib.Checked

/-- The program returns, and its result satisfies the postcondition. -/
def Returns {α : Type} (prog : Option α) (post : α → Prop) : Prop :=
  ∃ a, prog = some a ∧ post a

theorem Returns.of_eq {α : Type} {prog : Option α} {post : α → Prop} {a : α}
    (h : prog = some a) (hpost : post a) : Returns prog post :=
  ⟨a, h, hpost⟩

theorem Returns.pure {α : Type} {post : α → Prop} {a : α} (hpost : post a) :
    Returns (some a) post :=
  ⟨a, rfl, hpost⟩

theorem Returns.bind {α β : Type} {prog : Option α} {m : α → Prop}
    {next : α → Option β} {post : β → Prop} (h : Returns prog m)
    (hnext : ∀ a, m a → Returns (next a) post) : Returns (prog >>= next) post := by
  obtain ⟨a, ha, hmid⟩ := h
  obtain ⟨b, hb, hpost⟩ := hnext a hmid
  exact ⟨b, by simp [ha, hb], hpost⟩

theorem Returns.mono {α : Type} {prog : Option α} {post post' : α → Prop}
    (h : Returns prog post) (himp : ∀ a, post a → post' a) : Returns prog post' := by
  obtain ⟨a, ha, hpost⟩ := h
  exact ⟨a, ha, himp a hpost⟩

/-- Fail unless the condition holds. -/
def require (cond : Prop) [Decidable cond] : Option Unit :=
  if cond then some () else none

theorem require_eq_some {cond : Prop} [Decidable cond] (h : cond) :
    require cond = some () := by
  simp [require, h]

theorem require_eq_none {cond : Prop} [Decidable cond] (h : ¬cond) :
    require cond = none := by
  simp [require, h]

/-- Results that are known one by one. -/
theorem mapM_range {α : Type} {f : Nat → Option α} {as : List α}
    (h : ∀ i (hi : i < as.length), f i = some as[i]) :
    (List.range as.length).mapM f = some as := by
  induction as using List.reverseRecOn with
  | nil => rfl
  | append_singleton as a ih =>
      have hinit : (List.range as.length).mapM f = some as := by
        apply ih
        intro i hi
        rw [h i (by simp; omega), List.getElem_append_left hi]
      have hlast : f as.length = some a := by
        rw [h as.length (by simp), List.getElem_append_right (Nat.le_refl _)]
        simp
      rw [List.length_append, List.length_singleton, List.range_succ, List.mapM_append, hinit]
      simp [hlast]

/-- `for i in lo..lo + count`. -/
def forUp {σ : Type} (body : Nat → σ → Option σ) : Nat → Nat → σ → Option σ
  | _, 0, s => some s
  | lo, count + 1, s => do
      let s ← body lo s
      forUp body (lo + 1) count s

/-- `for i in (0..count).rev()`. -/
def forDown {σ : Type} (body : Nat → σ → Option σ) : Nat → σ → Option σ
  | 0, s => some s
  | i + 1, s => do
      let s ← body i s
      forDown body i s

/-- `for x in items`. -/
def forEach {α σ : Type} (body : α → σ → Option σ) : List α → σ → Option σ
  | [], s => some s
  | x :: xs, s => do
      let s ← body x s
      forEach body xs s

/-- `while cond { body }`, for at most `fuel` iterations; `none` when the
condition still holds after that many. -/
def whileLoop {σ : Type} (cond : σ → Option Bool) (body : σ → Option σ) :
    Nat → σ → Option σ
  | 0, s => do
      let again ← cond s
      if again then none else some s
  | fuel + 1, s => do
      let again ← cond s
      if again then do
        let s ← body s
        whileLoop cond body fuel s
      else some s

theorem forUp_returns {σ : Type} {f : Nat → σ → Option σ} (inv : Nat → σ → Prop)
    (lo count : Nat) (s : σ) (hinit : inv lo s)
    (hstep : ∀ i s, lo ≤ i → i < lo + count → inv i s → Returns (f i s) (inv (i + 1))) :
    Returns (forUp f lo count s) (inv (lo + count)) := by
  induction count generalizing lo s with
  | zero => exact Returns.pure hinit
  | succ count ih =>
      refine Returns.bind (hstep lo s (Nat.le_refl lo) (by omega) hinit) ?_
      intro s' hs'
      have hrest := ih (lo + 1) s' hs' fun i s hlo hhi => hstep i s (by omega) (by omega)
      rwa [Nat.add_assoc, Nat.add_comm 1 count] at hrest

theorem forDown_returns {σ : Type} {f : Nat → σ → Option σ} (inv : Nat → σ → Prop)
    (count : Nat) (s : σ) (hinit : inv count s)
    (hstep : ∀ i s, i < count → inv (i + 1) s → Returns (f i s) (inv i)) :
    Returns (forDown f count s) (inv 0) := by
  induction count generalizing s with
  | zero => exact Returns.pure hinit
  | succ count ih =>
      refine Returns.bind (hstep count s (by omega) hinit) ?_
      intro s' hs'
      exact ih s' hs' fun i s hi => hstep i s (by omega)

/-- The states of a loop from the first to the last, with what every step does to the next. -/
theorem forDown_trace {σ : Type} {f : Nat → σ → Option σ} (inv : Nat → σ → Prop)
    (post : Nat → σ → σ → Prop) (count : Nat) (s : σ) (hinit : inv count s)
    (hstep : ∀ i s, i < count → inv (i + 1) s →
      Returns (f i s) fun s' => inv i s' ∧ post i s s') :
    ∃ states : Nat → σ, states count = s ∧ forDown f count s = some (states 0) ∧
      inv 0 (states 0) ∧
      ∀ i < count, f i (states (i + 1)) = some (states i) ∧ post i (states (i + 1)) (states i) := by
  induction count generalizing s with
  | zero => exact ⟨fun _ => s, rfl, rfl, hinit, by simp⟩
  | succ count ih =>
      obtain ⟨s', hs', hinv, hpost⟩ := hstep count s (by omega) hinit
      obtain ⟨states, hfirst, hloop, hlast, hstates⟩ :=
        ih s' hinv fun i s hi => hstep i s (by omega)
      refine ⟨fun i => if i = count + 1 then s else states i, if_pos rfl, ?_, ?_, ?_⟩
      · rw [forDown, hs']
        exact hloop
      · exact hlast
      · intro i hi
        rcases Nat.lt_succ_iff_lt_or_eq.mp hi with hlt | rfl
        · simpa only [if_neg (show i + 1 ≠ count + 1 by omega),
            if_neg (show i ≠ count + 1 by omega)] using hstates i hlt
        · simp only [if_neg (show i ≠ i + 1 by omega), if_true, hfirst]
          exact ⟨hs', hpost⟩

/-- The invariant of `forEach` speaks of the items already done and of those
still to come. -/
theorem forEach_returns {α σ : Type} {f : α → σ → Option σ}
    (inv : List α → List α → σ → Prop) (xs : List α) (s : σ) (hinit : inv [] xs s)
    (hstep : ∀ done x rest s, xs = done ++ x :: rest → inv done (x :: rest) s →
      Returns (f x s) (inv (done ++ [x]) rest)) :
    Returns (forEach f xs s) (inv xs []) := by
  suffices h : ∀ rest done s, xs = done ++ rest → inv done rest s →
      Returns (forEach f rest s) (inv xs []) from h xs [] s rfl hinit
  intro rest
  induction rest with
  | nil =>
      intro done s hxs hinv
      obtain rfl : xs = done := by simpa using hxs
      exact Returns.pure hinv
  | cons x rest ih =>
      intro done s hxs hinv
      refine Returns.bind (hstep done x rest s hxs hinv) ?_
      intro s' hs'
      exact ih (done ++ [x]) s' (by simpa using hxs) hs'

theorem whileLoop_returns {σ : Type} {cond : σ → Option Bool} {body : σ → Option σ}
    (inv : σ → Prop) (measure : σ → Nat) (post : σ → Prop) (fuel : Nat) (s : σ)
    (hinit : inv s) (hfuel : measure s ≤ fuel)
    (hcond : ∀ s, inv s → (cond s = some true ∧ 0 < measure s) ∨ (cond s = some false ∧ post s))
    (hbody : ∀ s, inv s → cond s = some true →
      Returns (body s) fun s' => inv s' ∧ measure s' < measure s) :
    Returns (whileLoop cond body fuel s) post := by
  induction fuel generalizing s with
  | zero =>
      rcases hcond s hinit with ⟨_, hpos⟩ | ⟨hc, hpost⟩
      · omega
      · exact Returns.of_eq (by simp [whileLoop, hc]) hpost
  | succ fuel ih =>
      rcases hcond s hinit with ⟨hc, _⟩ | ⟨hc, hpost⟩
      · obtain ⟨s', hs', hinv, hlt⟩ := hbody s hinit hc
        obtain ⟨r, hr, hpost⟩ := ih s' hinv (by omega)
        exact Returns.of_eq (by simp [whileLoop, hc, hs', hr]) hpost
      · exact Returns.of_eq (by simp [whileLoop, hc]) hpost

/-- The content of a cell, the default value outside the array. -/
def cell {α : Type} [Inhabited α] (a : Array α) (p : Nat) : α :=
  a[p]?.getD default

/-- `a[p] = v`, checked. -/
def put {α : Type} (a : Array α) (p : Nat) (v : α) : Option (Array α) :=
  if p < a.size then some (a.setIfInBounds p v) else none

theorem getElem?_eq_cell {α : Type} [Inhabited α] {a : Array α} {p : Nat}
    (hp : p < a.size) : a[p]? = some (cell a p) := by
  simp [cell, hp]

theorem put_eq_some {α : Type} {a : Array α} {p : Nat} (v : α) (hp : p < a.size) :
    put a p v = some (a.setIfInBounds p v) := by
  simp [put, hp]

theorem cell_set {α : Type} [Inhabited α] {a : Array α} {p : Nat} (v : α)
    (hp : p < a.size) (q : Nat) :
    cell (a.setIfInBounds p v) q = if q = p then v else cell a q := by
  unfold cell
  rw [Array.getElem?_setIfInBounds]
  by_cases h : p = q
  · subst h
    simp [hp]
  · rw [if_neg h, if_neg (Ne.symm h)]

@[simp] theorem cell_set_self {α : Type} [Inhabited α] {a : Array α} {p : Nat} (v : α)
    (hp : p < a.size) : cell (a.setIfInBounds p v) p = v := by
  rw [cell_set v hp, if_pos rfl]

theorem cell_set_ne {α : Type} [Inhabited α] {a : Array α} {p q : Nat} (v : α)
    (h : q ≠ p) : cell (a.setIfInBounds p v) q = cell a q := by
  unfold cell
  rw [Array.getElem?_setIfInBounds_ne (Ne.symm h)]

theorem array_ext_cell {α : Type} [Inhabited α] {a b : Array α} (hsize : a.size = b.size)
    (h : ∀ p, p < a.size → cell a p = cell b p) : a = b := by
  apply Array.ext hsize
  intro p hpa hpb
  simpa [cell, hpa, hpb] using h p hpa

end DirtybirdMiner.Lib.Checked
