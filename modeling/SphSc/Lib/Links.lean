import SphSc.Lib.Exec
import Mathlib.Logic.Function.Basic
import Mathlib.Data.List.Induction
import Mathlib.Data.List.Nodup
/-!
# Linked nodes

Nodes that their owner keeps link to each other through pointers. `Path link p
xs q` says that following `link` from the pointer `p` visits the nodes `xs` and
arrives at `q`. A path that arrives at null visits no node twice, so a node's
link is written without a detour through the other nodes.
-/
open Exec

namespace Links

variable {N : Type}

/-- `*p`, which null has not. -/
def deref : Option N → Exec N
  | none => .error .outOfBounds
  | some n => .ok n

@[simp] theorem deref_some (n : N) : deref (some n) = .ok n := rfl

theorem deref_eq_ok {p : Option N} {n : N} : deref p = .ok n ↔ p = some n := by
  cases p <;> simp [deref]

def Path (link : N → Option N) : Option N → List N → Option N → Prop
  | p, [], q => p = q
  | p, n :: ns, q => p = some n ∧ Path link (link n) ns q

variable {link link' : N → Option N} {p q r : Option N} {n : N} {xs ys : List N}

/-- Only the links of the nodes on the path matter. -/
theorem Path.congr (h : Path link p xs q) (hsame : ∀ n ∈ xs, link' n = link n) : Path link' p xs q := by
  induction xs generalizing p with
  | nil => exact h
  | cons n xs ih =>
    obtain ⟨rfl, h⟩ := h
    refine ⟨rfl, ?_⟩
    rw [hsame n (by simp)]
    exact ih h fun m hm => hsame m (by simp [hm])

theorem path_append : Path link p (xs ++ ys) q ↔ ∃ r, Path link p xs r ∧ Path link r ys q := by
  induction xs generalizing p with
  | nil => simp [Path]
  | cons n xs ih => simp only [List.cons_append, Path, ih, and_assoc, exists_and_left]

theorem path_snoc : Path link p (xs ++ [n]) q ↔ Path link p xs (some n) ∧ link n = q := by
  rw [path_append]
  constructor
  · rintro ⟨r, h, rfl, hq⟩
    exact ⟨h, hq⟩
  · rintro ⟨h, hq⟩
    exact ⟨_, h, rfl, hq⟩

/-- The way to null starts with every other way from there. -/
theorem Path.split {zs : List N} (h : Path link p xs q) (h' : Path link p zs none) :
    ∃ ys, zs = xs ++ ys ∧ Path link q ys none := by
  induction xs generalizing p zs with
  | nil =>
    obtain rfl : p = q := h
    exact ⟨zs, rfl, h'⟩
  | cons n xs ih =>
    obtain ⟨rfl, h⟩ := h
    rcases zs with _ | ⟨m, zs⟩
    · cases h'
    · obtain ⟨hm, h'⟩ := h'
      cases hm
      obtain ⟨ys, rfl, hys⟩ := ih h h'
      exact ⟨ys, rfl, hys⟩

/-- There is one way to null. -/
theorem Path.unique (h : Path link p xs none) (h' : Path link p ys none) : xs = ys := by
  obtain ⟨zs, rfl, hzs⟩ := h.split h'
  cases zs with
  | nil => rw [List.append_nil]
  | cons => cases hzs.1

/-- A path from a node to somewhere else starts with the node. -/
theorem Path.eq_cons (h : Path link (some n) xs q) (hne : some n ≠ q) : ∃ ys, xs = n :: ys := by
  cases xs with
  | nil => exact absurd h hne
  | cons m ys =>
    obtain ⟨hm, -⟩ := h
    cases hm
    exact ⟨ys, rfl⟩

/-- A node visited twice would start two ways to null of different lengths. -/
theorem Path.nodup (h : Path link p xs none) : xs.Nodup := by
  induction xs generalizing p with
  | nil => exact List.nodup_nil
  | cons n xs ih =>
    obtain ⟨rfl, h⟩ := h
    refine List.nodup_cons.2 ⟨fun hn => ?_, ih h⟩
    obtain ⟨as, bs, rfl⟩ := List.append_of_mem hn
    obtain ⟨r, -, hr⟩ := path_append.1 h
    obtain ⟨rfl, hbs⟩ := hr
    have hlen := congrArg List.length (Path.unique h hbs)
    simp at hlen
    omega

theorem Path.head (h : Path link p xs none) : p = xs.head? := by
  rcases xs with _ | ⟨n, xs⟩
  · exact h
  · exact h.1

/-- Each node is linked to the one after it. -/
theorem Path.link_eq (h : Path link p (xs ++ n :: ys) none) : link n = ys.head? := by
  obtain ⟨r, -, rfl, hys⟩ := path_append.1 h
  exact hys.head

theorem Path.last (h : Path link p (xs ++ [n]) q) : link n = q := (path_snoc.1 h).2

/-- Two links that are inverse on the way from the first node lead back to it. -/
theorem path_back {back : N → Option N} (h : Path link p (xs ++ ys) none) (hfirst : ∀ f, p = some f → back f = none)
    (hback : ∀ n m, n ∈ xs ++ ys → link n = some m → back m = some n) : Path back xs.getLast? xs.reverse none := by
  induction xs using List.reverseRecOn generalizing ys with
  | nil => rfl
  | append_singleton xs n ih =>
    rw [List.append_assoc] at h hback
    rw [List.getLast?_concat, List.reverse_append]
    refine ⟨rfl, ?_⟩
    have hprevious : back n = xs.getLast? := by
      rcases List.eq_nil_or_concat xs with rfl | ⟨front, l, rfl⟩
      · exact hfirst n h.1
      · rw [List.concat_eq_append] at *
        rw [List.append_assoc] at h
        rw [List.getLast?_concat]
        exact hback l n (by simp) h.link_eq
    rw [hprevious]
    exact ih h hback

/-- The last node of the path is linked to a node that is not on it. -/
theorem Path.extend [DecidableEq N] {l : N} (h : Path link p (xs ++ [l]) none) (hn : n ∉ xs ++ [l]) :
    Path (Function.update (Function.update link l (some n)) n none) p (xs ++ [l] ++ [n]) none := by
  have hl : l ∉ xs := fun hl => (List.nodup_append.1 h.nodup).2.2 l hl l (by simp) rfl
  have hln : l ≠ n := fun hc => hn (by simp [hc])
  refine path_snoc.2 ⟨path_snoc.2 ⟨(path_snoc.1 h).1.congr fun m hm => ?_, ?_⟩, Function.update_self ..⟩
  · have hmn : m ≠ n := fun hc => hn (by simp [← hc, hm])
    have hml : m ≠ l := fun hc => hl (hc ▸ hm)
    rw [Function.update_of_ne hmn, Function.update_of_ne hml]
  · rw [Function.update_of_ne hln, Function.update_self]

/-- The node after the first part of a path is left out. -/
theorem Path.skip [DecidableEq N] {l : N} (h : Path link p (xs ++ [l] ++ n :: ys) none) :
    Path (Function.update link l (link n)) p (xs ++ [l] ++ ys) none := by
  have hnd := h.nodup
  obtain ⟨r, hxs, rfl, hys⟩ := path_append.1 h
  simp only [List.append_assoc, List.nodup_append, List.singleton_append, List.nodup_cons, List.mem_cons] at hnd
  refine path_append.2 ⟨link n, path_snoc.2 ⟨(path_snoc.1 hxs).1.congr fun m hm => ?_, Function.update_self ..⟩,
    hys.congr fun m hm => ?_⟩
  · have hml : m ≠ l := hnd.2.2 m hm l (.inl rfl)
    rw [Function.update_of_ne hml]
  · have hml : m ≠ l := by
      rintro rfl
      exact hnd.2.1.1 (.inr hm)
    rw [Function.update_of_ne hml]

end Links
