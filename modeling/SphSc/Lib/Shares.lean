import Mathlib.Data.List.Nodup
import Mathlib.Logic.Function.Basic
/-!
# Shares

Blocks that are in use are divided among owners. `Shares key live parts` says
that the items of all parts stand for the blocks in use, each for another one.
A block comes into use in a part, goes out of use there, or changes its owner.
-/

/-- Every block in use is in one part, once. -/
structure Shares {N C P : Type} (key : C → N) (live : N → Prop) (parts : P → List C) : Prop where
  nodup : ∀ p, ((parts p).map key).Nodup
  apart : ∀ p q c d, c ∈ parts p → d ∈ parts q → key c = key d → p = q
  live_iff : ∀ n, live n ↔ ∃ p, ∃ c ∈ parts p, key c = n

namespace Shares

variable {N C P : Type} {key : C → N} {live : N → Prop} {parts : P → List C} {p q : P} {xs ys : List C} {c : C}

theorem empty : Shares key (fun _ => False) fun _ : P => ([] : List C) where
  nodup := by simp
  apart := by simp
  live_iff := by simp

theorem of_live {live' : N → Prop} (h : Shares key live parts) (hsame : ∀ n, live' n ↔ live n) :
    Shares key live' parts := by
  rwa [show live' = live from funext fun n => propext (hsame n)]

theorem live_of_mem (h : Shares key live parts) (hc : c ∈ parts p) : live (key c) := (h.live_iff _).2 ⟨p, c, hc, rfl⟩

/-- The first and the second half of a part have no block in common. -/
theorem disjoint (h : Shares key live parts) (hp : parts p = xs ++ ys) (hc : c ∈ ys) : key c ∉ xs.map key := by
  have hnd := h.nodup p
  rw [hp, List.map_append] at hnd
  exact fun hx => (List.nodup_append.1 hnd).2.2 _ hx _ (List.mem_map_of_mem hc) rfl

variable [DecidableEq P]

theorem mem_update {l : List C} : c ∈ Function.update parts p l q ↔ if q = p then c ∈ l else c ∈ parts q := by
  rw [Function.update_apply]
  split <;> rfl

/-- A block comes into use. -/
theorem acquire (h : Shares key live parts) (hc : ¬ live (key c)) :
    Shares key (fun n => n = key c ∨ live n) (Function.update parts p (c :: parts p)) where
  nodup q := by
    rcases eq_or_ne q p with rfl | hq
    · rw [Function.update_self, List.map_cons, List.nodup_cons]
      refine ⟨fun hmem => hc ?_, h.nodup q⟩
      obtain ⟨d, hd, hkey⟩ := List.mem_map.1 hmem
      exact hkey ▸ h.live_of_mem hd
    · rw [Function.update_of_ne hq]
      exact h.nodup q
  apart q r d e hd he hkey := by
    have hlive := @h.live_of_mem
    have hapart := h.apart q r d e
    rw [mem_update] at hd he
    grind
  live_iff n := by
    have hn := h.live_iff n
    simp only [mem_update]
    grind

/-- Blocks of a part go out of use. -/
theorem release (h : Shares key live parts) (hp : parts p = xs ++ ys) :
    Shares key (fun n => live n ∧ n ∉ xs.map key) (Function.update parts p ys) where
  nodup q := by
    rcases eq_or_ne q p with rfl | hq
    · rw [Function.update_self]
      exact ((List.sublist_append_right xs ys).map key).nodup (hp ▸ h.nodup q)
    · rw [Function.update_of_ne hq]
      exact h.nodup q
  apart q r d e hd he hkey := by
    have hapart := h.apart q r d e
    rw [mem_update] at hd he
    grind
  live_iff n := by
    have hn := h.live_iff n
    have hdisjoint : ∀ c ∈ ys, key c ∉ xs.map key := fun c => h.disjoint hp
    have hapart := h.apart p
    simp only [mem_update, List.mem_map]
    grind

/-- Blocks of a part go to another owner. -/
theorem move (h : Shares key live parts) (hp : parts p = xs ++ ys) (hne : p ≠ q) :
    Shares key live (Function.update (Function.update parts p xs) q (parts q ++ ys)) where
  nodup r := by
    have hnd := h.nodup p
    rw [hp, List.map_append] at hnd
    obtain ⟨hxs, hys, -⟩ := List.nodup_append.1 hnd
    rcases eq_or_ne r q with rfl | hr
    · rw [Function.update_self, List.map_append]
      refine List.nodup_append.2 ⟨h.nodup r, hys, fun a ha b hb hab => ?_⟩
      obtain ⟨c, hc, rfl⟩ := List.mem_map.1 ha
      obtain ⟨d, hd, rfl⟩ := List.mem_map.1 hb
      exact hne (h.apart p r d c (hp ▸ List.mem_append_right xs hd) hc hab.symm)
    · rw [Function.update_of_ne hr]
      rcases eq_or_ne r p with rfl | hrp
      · rwa [Function.update_self]
      · rw [Function.update_of_ne hrp]
        exact h.nodup r
  apart r s d e hd he hkey := by
    have hdisjoint : ∀ c ∈ ys, key c ∉ xs.map key := fun c => h.disjoint hp
    have hapart := h.apart
    simp only [mem_update, List.mem_append] at hd he
    simp only [List.mem_map] at hdisjoint
    grind
  live_iff n := by
    rw [h.live_iff]
    simp only [mem_update, List.mem_append]
    grind

end Shares
