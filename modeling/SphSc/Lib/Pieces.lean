import SphSc.Lib.Exec
/-!
# Curves in consecutive pieces

`paint` draws a partial function over a block, and the loops that store into a
block paint. A curve is a list of pieces, each on a half-open interval that
starts where the one before ended. Such a curve read from `s` on does not need
the pieces that ended by `s`, which is what a reader that remembers where it
left off relies on.
-/
open Exec

namespace Pieces

variable {α : Type}

/-! ## Painting a block -/

/-- The block with the samples `f` gives, and its own where `f` gives none. -/
def paint (block : List α) (f : Nat → Option α) : List α := block.mapIdx fun j a => (f j).getD a

@[simp] theorem length_paint (block : List α) (f : Nat → Option α) : (paint block f).length = block.length := by
  simp [paint]

@[simp] theorem getElem?_paint (block : List α) (f : Nat → Option α) (j : Nat) :
    (paint block f)[j]? = block[j]?.map fun a => (f j).getD a := by
  simp [paint]

theorem paint_congr {block : List α} {f g : Nat → Option α} (h : ∀ j < block.length, f j = g j) :
    paint block f = paint block g := by
  apply List.ext_getElem?
  intro j
  rw [getElem?_paint, getElem?_paint]
  by_cases hj : j < block.length
  · rw [h j hj]
  · rw [List.getElem?_eq_none (Nat.le_of_not_lt hj)]; rfl

@[simp] theorem paint_none (block : List α) : paint block (fun _ => none) = block :=
  List.ext_getElem? fun j => by simp

/-- The later of two drawings is on top. -/
theorem paint_paint (block : List α) (f g : Nat → Option α) :
    paint (paint block f) g = paint block fun j => (g j).or (f j) := by
  apply List.ext_getElem?
  intro j
  simp only [getElem?_paint, Option.map_map]
  congr 1
  funext a
  cases g j <;> rfl

theorem paint_append (block block' : List α) (f : Nat → Option α) :
    paint (block ++ block') f = paint block f ++ paint block' fun j => f (block.length + j) := by
  simp [paint, List.mapIdx_append, Nat.add_comm]

/-- Drawings that differ show on some block. -/
theorem eq_of_paint [Nontrivial α] {f g : Nat → Option α} {n j : Nat} (hj : j < n)
    (h : ∀ block : List α, block.length = n → paint block f = paint block g) : f j = g j := by
  have hget : ∀ a : α, (f j).getD a = (g j).getD a := by
    intro a
    have := congrArg (fun b => b[j]?) (h (List.replicate n a) (by simp))
    simpa only [getElem?_paint, List.getElem?_replicate, hj, if_true, Option.map_some, Option.some.injEq] using this
  obtain ⟨a, b, hab⟩ := exists_pair_ne α
  have ha := hget a
  have hb := hget b
  cases hf : f j <;> cases hg : g j <;> simp_all

/-- The window of `n` samples from position `out` on, showing `f` from `s` on. -/
def window (out n s : Nat) (f : Nat → Option α) (j : Nat) : Option α :=
  if out ≤ j ∧ j < out + n then f (s + (j - out)) else none

theorem window_congr {out n s : Nat} {f g : Nat → Option α} (h : ∀ x, s ≤ x → x < s + n → f x = g x) :
    window out n s f = window out n s g := by
  funext j
  unfold window
  split
  · exact h _ (by omega) (by omega)
  · rfl

@[simp] theorem window_zero (out s : Nat) (f : Nat → Option α) : window out 0 s f = fun _ => none := by
  funext j
  exact if_neg (by omega)

theorem window_none (out n s : Nat) : window out n s (fun _ => (none : Option α)) = fun _ => none := by
  funext j
  simp [window]

theorem fill_paints {block : List α} {out n : Nat} (s : Nat) (a : α) (h : out + n ≤ block.length) :
    fill block out n a = .ok (paint block (window out n s fun _ => some a)) := by
  rw [fill, if_pos h]
  refine congrArg _ (List.ext_getElem? fun j => ?_)
  rw [getElem?_paint, window]
  rcases Nat.lt_or_ge j out with hj | hj
  · rw [if_neg (by omega), List.append_assoc, List.getElem?_append_left (by simp; omega), List.getElem?_take_of_lt hj]
    simp only [Option.getD_none, Option.map_id']
  rcases Nat.lt_or_ge j (out + n) with hj' | hj'
  · rw [if_pos ⟨hj, hj'⟩, List.getElem?_append_left (by simp; omega), List.getElem?_append_right (by simp; omega)]
    rw [List.getElem?_replicate, List.length_take, if_pos (by omega), List.getElem?_eq_getElem (by omega)]
    rfl
  · rw [if_neg (by omega), List.getElem?_append_right (by simp; omega), List.getElem?_drop]
    simp only [List.length_append, List.length_take, List.length_replicate, Option.getD_none, Option.map_id']
    congr 1; omega

/-- `for (; i < n; i += 1) out[i] = f(i)`, with `remaining` rounds to go. -/
def store (out : Nat) (f : Nat → α) : (remaining i : Nat) → List α → Exec (List α)
  | 0, _, block => return block
  | remaining + 1, i, block => do
    let block ← write block (out + i) (f i)
    store out f remaining (i + 1) block

theorem store_paints {out s : Nat} {f : Nat → α} {v : Nat → Option α} {remaining i : Nat} {block : List α}
    (hv : ∀ k, i ≤ k → k < i + remaining → v (s + k) = some (f k)) (h : out + i + remaining ≤ block.length) :
    store out f remaining i block = .ok (paint block (window (out + i) remaining (s + i) v)) := by
  induction remaining generalizing i block with
  | zero => simp [store]
  | succ remaining ih =>
    rw [store, write_of_lt _ (by omega), ok_bind,
      ih (fun k hk hk' => hv k (by omega) (by omega)) (by simp; omega)]
    refine congrArg _ (List.ext_getElem? fun j => ?_)
    simp only [getElem?_paint, List.getElem?_set, window]
    rcases Nat.lt_trichotomy j (out + i) with hj | rfl | hj
    · rw [if_neg (by omega), if_neg (by omega), if_neg (by omega)]
    · have hw := hv i (by omega) (by omega)
      have hlt : out + i < block.length := by omega
      have hx : s + i + (out + i - (out + i)) = s + i := by omega
      rw [if_pos rfl, if_pos hlt, if_neg (by omega), if_pos (by omega), List.getElem?_eq_getElem hlt, hx, hw]
      rfl
    · rw [if_neg (by omega : ¬ out + i = j)]
      congr 2
      by_cases hj' : j < out + i + (remaining + 1)
      · have hx : s + (i + 1) + (j - (out + (i + 1))) = s + i + (j - (out + i)) := by omega
        rw [if_pos (by omega), if_pos (by omega), hx]
      · rw [if_neg (by omega), if_neg (by omega)]

theorem window_or (out n s : Nat) (f g : Nat → Option α) :
    (fun j => (window out n s f j).or (window out n s g j)) = window out n s fun x => (f x).or (g x) := by
  funext j
  unfold window
  split <;> rfl

/-- A window on a curve moved to the right shows the curve `d` further left. -/
theorem window_shift {out n s d : Nat} (h : d ≤ s) (f : Nat → Option α) :
    window out n (s - d) f = window out n s fun x => f (x - d) := by
  funext j
  have hx : s - d + (j - out) = s + (j - out) - d := by omega
  rw [window, window, hx]

/-- The part of a window that shows only what lies in `[lo, hi)` is a window. -/
theorem window_clip {out s e lo hi : Nat} (hlo : lo ≤ e) (hhi : s ≤ hi) (f : Nat → Option α) :
    window (out + (max lo s - s)) (min hi e - max lo s) (max lo s) f =
      window out (e - s) s fun x => if lo ≤ x ∧ x < hi then f x else none := by
  funext j
  unfold window
  by_cases hj : out ≤ j ∧ j < out + (e - s)
  · rw [if_pos hj]
    dsimp only
    by_cases hx : lo ≤ s + (j - out) ∧ s + (j - out) < hi
    · have heq : max lo s + (j - (out + (max lo s - s))) = s + (j - out) := by omega
      rw [if_pos hx, if_pos (by omega), heq]
    · rw [if_neg hx, if_neg (by omega)]
  · rw [if_neg hj, if_neg (by omega)]

/-! ## Pieces -/

/-- A function on `[lo, hi)`. -/
structure Piece (α : Type) where
  lo : Nat
  hi : Nat
  value : Nat → α

/-- The value of the first piece that covers `x`. -/
def draw : List (Piece α) → Nat → Option α
  | [], _ => none
  | p :: ps, x => if p.lo ≤ x ∧ x < p.hi then some (p.value x) else draw ps x

/-- Each piece starts where the one before it ended, the first at `a`. -/
def Chain : Nat → List (Piece α) → Prop
  | _, [] => True
  | a, p :: ps => p.lo = a ∧ a ≤ p.hi ∧ Chain p.hi ps

theorem chain_head {a : Nat} {ps : List (Piece α)} (hc : Chain a ps) {p : Piece α} (hp : ps[0]? = some p) : p.lo = a := by
  cases ps with
  | nil => cases hp
  | cons q ps => cases hp; exact hc.1

theorem draw_of_lt {a : Nat} {ps : List (Piece α)} (hc : Chain a ps) {x : Nat} (hx : x < a) : draw ps x = none := by
  induction ps generalizing a with
  | nil => rfl
  | cons p ps ih =>
    obtain ⟨rfl, hle, hc⟩ := hc
    rw [draw, if_neg (by omega)]
    exact ih hc (by omega)

/-- Nothing is seen of pieces that start after the window. -/
theorem window_draw_before {a : Nat} {ps : List (Piece α)} (hc : Chain a ps) {out n s : Nat} (h : s + n ≤ a) :
    window out n s (draw ps) = fun _ => none := by
  rw [← window_none out n s]
  apply window_congr
  intro x _ hx
  exact draw_of_lt hc (by omega)

/-- Nothing is seen of a piece that ends before the window. -/
theorem window_draw_after {p : Piece α} {s : Nat} (h : p.hi ≤ s) (out n : Nat) (ps : List (Piece α)) :
    window out n s (draw (p :: ps)) = window out n s (draw ps) := by
  apply window_congr
  intro x hx _
  exact if_neg (by omega)

/-- Pieces that follow one do not reach back into it. -/
theorem draw_cons_or {p : Piece α} {ps : List (Piece α)} (hc : Chain p.hi ps) (x : Nat) :
    (draw ps x).or (if p.lo ≤ x ∧ x < p.hi then some (p.value x) else none) = draw (p :: ps) x := by
  rw [draw]
  split
  · rw [draw_of_lt hc (by omega), Option.none_or]
  · rw [Option.or_none]

/-- Where the piece at `i` starts, everything from the start of the curve on is
drawn by an earlier piece, and nothing from there on is. -/
theorem draw_drop {a : Nat} {ps : List (Piece α)} (hc : Chain a ps) {i : Nat} {p : Piece α} (hp : ps[i]? = some p) :
    Chain p.lo (ps.drop i) ∧ a ≤ p.lo ∧ (∀ x, p.lo ≤ x → draw (ps.drop i) x = draw ps x) ∧
      ∀ x, a ≤ x → x < p.lo → (draw ps x).isSome := by
  induction i generalizing a ps with
  | zero =>
    cases ps with
    | nil => cases hp
    | cons q ps =>
      cases hp
      obtain ⟨rfl, hle, hc⟩ := hc
      exact ⟨⟨rfl, hle, hc⟩, Nat.le_refl _, fun _ _ => rfl, fun x h h' => by omega⟩
  | succ i ih =>
    cases ps with
    | nil => cases hp
    | cons q ps =>
      obtain ⟨rfl, hle, hc⟩ := hc
      obtain ⟨hc', ha, heq, hsome⟩ := ih hc hp
      refine ⟨hc', by omega, fun x hx => ?_, fun x hx hx' => ?_⟩
      · rw [List.drop_succ_cons, heq x hx, draw, if_neg (by omega)]
      · rw [draw]
        split
        · rfl
        · exact hsome x (by omega) hx'

theorem draw_append (ps qs : List (Piece α)) (x : Nat) : draw (ps ++ qs) x = (draw ps x).or (draw qs x) := by
  induction ps with
  | nil => rfl
  | cons p ps ih =>
    rw [List.cons_append, draw, draw, ih]
    split <;> rfl

/-! ## Pieces from one point to another -/

/-- A chain that starts at `a` and ends at `b`. -/
def ChainTo : Nat → List (Piece α) → Nat → Prop
  | a, [], b => a = b
  | a, p :: ps, b => p.lo = a ∧ a ≤ p.hi ∧ ChainTo p.hi ps b

section
variable {a b : Nat} {ps : List (Piece α)}

theorem ChainTo.chain (h : ChainTo a ps b) : Chain a ps := by
  induction ps generalizing a with
  | nil => trivial
  | cons p ps ih => exact ⟨h.1, h.2.1, ih h.2.2⟩

theorem ChainTo.le (h : ChainTo a ps b) : a ≤ b := by
  induction ps generalizing a with
  | nil => exact Nat.le_of_eq h
  | cons p ps ih => exact Nat.le_trans h.2.1 (ih h.2.2)

theorem ChainTo.hi_le (h : ChainTo a ps b) : ∀ p ∈ ps, p.hi ≤ b := by
  induction ps generalizing a with
  | nil => intro p hp; cases hp
  | cons q ps ih =>
    intro p hp
    rcases List.mem_cons.1 hp with rfl | hp
    · exact h.2.2.le
    · exact ih h.2.2 p hp

theorem ChainTo.append {c : Nat} {qs : List (Piece α)} (h : ChainTo a ps b) (h' : ChainTo b qs c) :
    ChainTo a (ps ++ qs) c := by
  induction ps generalizing a with
  | nil => obtain rfl := h; exact h'
  | cons p ps ih => exact ⟨h.1, h.2.1, ih h.2.2⟩

/-- Such a chain draws exactly from `a` to `b`. -/
theorem ChainTo.isSome_draw (h : ChainTo a ps b) (x : Nat) : (draw ps x).isSome ↔ a ≤ x ∧ x < b := by
  induction ps generalizing a with
  | nil =>
    obtain rfl := h
    simp only [draw, Option.isSome_none, Bool.false_eq_true, false_iff]
    omega
  | cons p ps ih =>
    obtain ⟨rfl, hle, h⟩ := h
    have hle' := h.le
    rw [draw]
    split
    · simp only [Option.isSome_some, true_iff]
      omega
    · rw [ih h]
      omega

end

/-- The piece moved to the right by `d`. -/
def Piece.shift (d : Nat) (p : Piece α) : Piece α := ⟨p.lo + d, p.hi + d, fun x => p.value (x - d)⟩

@[simp] theorem Piece.shift_zero (p : Piece α) : p.shift 0 = p := rfl

theorem Piece.shift_shift (d e : Nat) (p : Piece α) : (p.shift d).shift e = p.shift (d + e) := by
  simp only [shift, Nat.add_assoc, Nat.sub_sub, Nat.add_comm e d]

theorem ChainTo.shift {a b : Nat} {ps : List (Piece α)} (d : Nat) (h : ChainTo a ps b) :
    ChainTo (a + d) (ps.map (Piece.shift d)) (b + d) := by
  induction ps generalizing a with
  | nil => exact congrArg (· + d) h
  | cons p ps ih => exact ⟨congrArg (· + d) h.1, Nat.add_le_add_right h.2.1 d, ih h.2.2⟩

theorem draw_shift (d : Nat) (ps : List (Piece α)) (x : Nat) :
    draw (ps.map (Piece.shift d)) x = if d ≤ x then draw ps (x - d) else none := by
  induction ps with
  | nil => simp [draw]
  | cons p ps ih =>
    rw [List.map_cons, draw, ih]
    by_cases hd : d ≤ x
    · rw [if_pos hd, if_pos hd, draw]
      have hiff : (p.shift d).lo ≤ x ∧ x < (p.shift d).hi ↔ p.lo ≤ x - d ∧ x - d < p.hi := by
        simp only [Piece.shift]
        omega
      simp only [hiff]
      rfl
    · have hlo : ¬ (p.shift d).lo ≤ x := by
        simp only [Piece.shift]
        omega
      rw [if_neg hd, if_neg hd, if_neg (fun h => hlo h.1)]

end Pieces
