import SphSc.Hashtable.Refinement
import SphSc.SphSet.Refinement
/-!
# What `new` reports

Neither the product of factor and minimum size nor the number of bytes for the
values is checked, and the size after the largest power of two is zero. `new`
keeps what its status says where none of the three is reached.
-/
open Exec Ring

namespace SphSc

/-- A size that has the capacity asked for, with the mask it needs. -/
structure Sized (sizeFactor n size mask : Nat) : Prop where
  pow : ∃ k, size = 2 ^ k
  two_le : 2 ≤ size
  capacity : sizeFactor * n ≤ size
  mask_eq : mask = size - 1

/-- The size and the bytes of the values can be had in 64 bits. -/
def Fits (sizeFactor n sizeofValue : Nat) : Prop :=
  sizeFactor * n ≤ 2 ^ 63 ∧ 2 ^ Nat.clog 2 (max 2 (sizeFactor * n)) * sizeofValue < 2 ^ 64

/-- A status, the table's size and mask, and the requests, the latest first, are
right: a table is reported with the capacity and exactly the bytes asked for, a
request that is turned down is reported by 1. -/
def Reported (grants : Grants) (exact : Nat → List Request) (sizeFactor n : Nat) :
    Byte × Option (Nat × Nat) × List Request → Prop
  | (status, some (size, mask), requests) =>
    status = 0 ∧ grants requests = true ∧ Sized sizeFactor n size mask ∧ requests = exact size
  | (status, none, requests) => status = 1 ∧ grants requests = false

variable {sizeFactor n : Nat}

theorem two_le_clog (m : Nat) : 2 ≤ 2 ^ Nat.clog 2 (max 2 m) :=
  (le_max_left 2 m).trans (Nat.le_pow_clog (by omega) _)

theorem sized_of_le (h : sizeFactor * n ≤ 2 ^ 63) :
    Sized sizeFactor n (calculateSize sizeFactor n) (wsub (calculateSize sizeFactor n) 1) := by
  have htwo := two_le_clog (sizeFactor * n)
  have hlt := calculateSize_lt sizeFactor n
  rw [calculateSize_of_le h] at hlt ⊢
  refine ⟨⟨_, rfl⟩, htwo, ?_, wsub_of_le hlt (by omega)⟩
  exact (le_max_right 2 _).trans (Nat.le_pow_clog (by omega) _)

theorem Sized.le_of_calculateSize {mask : Nat} (h : Sized sizeFactor n (calculateSize sizeFactor n) mask) :
    sizeFactor * n ≤ 2 ^ 63 := by
  by_contra hle
  have hlt := calculateSize_lt_of_lt (show 2 ^ 63 < sizeFactor * n by omega)
  exact absurd h.capacity (by omega)

/-- The bytes asked for are exact when they fit. -/
theorem wmul_size_iff (h : sizeFactor * n ≤ 2 ^ 63) (sizeofValue : Nat) :
    wmul (calculateSize sizeFactor n) sizeofValue = calculateSize sizeFactor n * sizeofValue ↔
      Fits sizeFactor n sizeofValue := by
  rw [Fits, and_iff_right h, ← calculateSize_of_le h]
  exact Nat.mod_eq_iff_lt (by simp [word])

namespace Hashtable

variable {K V : Type}

/-- The requests for a table of `size` elements, the latest first. -/
def exactRequests (d : Decl K V) (size : Nat) : List Request :=
  [.malloc (size * d.sizeofValue), .calloc size d.sizeofKey, .calloc size 1]

/-- Whatever the heap grants, `new` reports what it did. -/
def Reports (d : Decl K V) (junk : Nat → V) (minimumSize : Nat) : Prop :=
  ∀ grants, Reported grants (exactRequests d) d.sizeFactor minimumSize <|
    let (status, table, requests) := new d grants junk minimumSize
    (status, table.map fun t => (t.size, t.mask), requests)

theorem reports_iff (d : Decl K V) (junk : Nat → V) (minimumSize : Nat) :
    Reports d junk minimumSize ↔ Fits d.sizeFactor minimumSize d.sizeofValue := by
  constructor
  · intro h
    obtain ⟨-, -, hsized, hexact⟩ := h fun _ => true
    have hle := hsized.le_of_calculateSize
    injection hexact with hbytes
    injection hbytes with hbytes
    exact (wmul_size_iff hle _).1 hbytes
  · intro h grants
    have hsized := sized_of_le h.1
    have hbytes := (wmul_size_iff h.1 _).2 h
    simp only [new]
    split_ifs with h₁ h₂ h₃
    · exact ⟨rfl, by simpa using h₁⟩
    · exact ⟨rfl, by simpa using h₂⟩
    · exact ⟨rfl, by simpa using h₃⟩
    · exact ⟨rfl, by simpa using h₃, hsized, by rw [hbytes]; rfl⟩

end Hashtable

namespace SphSet

variable {E : Type}

/-- The requests for a table of `size` elements, the latest first. -/
def exactRequests (d : Decl E) (size : Nat) : List Request :=
  [.calloc ((size + 7) / 8) 1, .malloc (size * d.sizeofValue)]

/-- Whatever the heap grants, `new` reports what it did. -/
def Reports (d : Decl E) (junk : Nat → E) (minSize : Nat) : Prop :=
  ∀ grants, Reported grants (exactRequests d) d.sizeFactor minSize <|
    let (status, table, requests) := new d grants junk minSize
    (status, table.map fun t => (t.size, t.mask), requests)

theorem reports_iff (d : Decl E) (junk : Nat → E) (minSize : Nat) :
    Reports d junk minSize ↔ Fits d.sizeFactor minSize d.sizeofValue := by
  constructor
  · intro h
    obtain ⟨-, -, hsized, hexact⟩ := h fun _ => true
    have hle := hsized.le_of_calculateSize
    injection hexact with hoccupied hrest
    injection hrest with hbytes
    injection hbytes with hbytes
    exact (wmul_size_iff hle _).1 hbytes
  · intro h grants
    have hsized := sized_of_le h.1
    have hbytes := (wmul_size_iff h.1 _).2 h
    have hoccupied : wadd (calculateSize d.sizeFactor minSize) 7 >>> 3 =
        (calculateSize d.sizeFactor minSize + 7) / 8 := by
      have hle : calculateSize d.sizeFactor minSize ≤ 2 ^ 63 := by
        rw [calculateSize_of_le h.1]
        exact Nat.pow_le_pow_right (by omega) (Nat.clog_le_of_le_pow (by have := h.1; omega))
      rw [wadd, Nat.mod_eq_of_lt (by unfold word; omega), Nat.shiftRight_eq_div_pow]
    simp only [new]
    split_ifs with h₁ h₂
    · exact ⟨rfl, by simpa using h₁⟩
    · exact ⟨rfl, by simpa using h₂⟩
    · exact ⟨rfl, by simpa using h₂, hsized, by rw [hbytes, hoccupied]; rfl⟩

end SphSet

/-- `new` reports what it did exactly when size and bytes fit, in either file. -/
theorem new_reports {K V E : Type} :
    (∀ (d : Hashtable.Decl K V) (junk : Nat → V) (minimumSize : Nat),
      Hashtable.Reports d junk minimumSize ↔ Fits d.sizeFactor minimumSize d.sizeofValue) ∧
    ∀ (d : SphSet.Decl E) (junk : Nat → E) (minSize : Nat),
      SphSet.Reports d junk minSize ↔ Fits d.sizeFactor minSize d.sizeofValue :=
  ⟨Hashtable.reports_iff, SphSet.reports_iff⟩

/-- Twice `2^63` is zero, so both report tables that have two slots. -/
theorem reports_wrapped : ¬ Hashtable.Reports Hashtable.integerDecl (fun _ => 0) (2 ^ 63) ∧
    ¬ SphSet.Reports SphSet.integerDecl (fun _ => 0) (2 ^ 63) := by
  constructor
  · rw [Hashtable.reports_iff]
    intro h
    exact absurd h.1 (by decide)
  · rw [SphSet.reports_iff]
    intro h
    exact absurd h.1 (by decide)

end SphSc
