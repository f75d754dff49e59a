/-
Ranges of 64-bit addresses.

A `Range` is a base and a length that is not zero and does not run past
the address space, so its end is an address again and membership can be
tested in machine arithmetic. `contains_iff` reads the test in the
natural numbers; everything after it is interval arithmetic.

`not_contains_of_between` is the fact a floor search rests on: of
disjoint ranges, none that starts further down reaches past the base of
another.
-/
import Mathlib.Logic.Basic

namespace Carmot.Lib

/-- A nonempty range of addresses whose end does not wrap. -/
structure Range where
  base : UInt64
  length : UInt64
  pos : 0 < length.toNat
  fits : base.toNat + length.toNat < UInt64.size

namespace Range

variable {r r' : Range} {p : UInt64}

/-- Is the address in the range, as machine arithmetic tests it? -/
def Contains (r : Range) (p : UInt64) : Prop := r.base ≤ p ∧ p < r.base + r.length

instance (r : Range) (p : UInt64) : Decidable (r.Contains p) :=
  inferInstanceAs (Decidable (_ ∧ _))

/-- No address is in both. -/
def Disjoint (r r' : Range) : Prop := ∀ p, r.Contains p → ¬ r'.Contains p

theorem contains_iff :
    r.Contains p ↔
      r.base.toNat ≤ p.toNat ∧ p.toNat < r.base.toNat + r.length.toNat := by
  unfold Contains
  rw [UInt64.le_iff_toNat_le, UInt64.lt_iff_toNat_lt, UInt64.toNat_add,
    Nat.mod_eq_of_lt r.fits]

theorem contains_base (r : Range) : r.Contains r.base := by
  rw [contains_iff]
  have hpos := r.pos
  omega

theorem Disjoint.symm (h : r.Disjoint r') : r'.Disjoint r :=
  fun p hr' hr => h p hr hr'

/-- Disjoint ranges start apart. -/
theorem Disjoint.base_ne (h : r.Disjoint r') : r.base ≠ r'.base := by
  intro heq
  have hb := r'.contains_base
  rw [← heq] at hb
  exact h r.base r.contains_base hb

/-- The offset of an address in its range. -/
theorem sub_base_lt (h : r.Contains p) : p - r.base < r.length := by
  obtain ⟨hle, hlt⟩ := contains_iff.mp h
  rw [UInt64.lt_iff_toNat_lt, UInt64.toNat_sub_of_le _ _ (UInt64.le_iff_toNat_le.mpr hle)]
  omega

/-- A range that starts below another one, disjoint from it, holds
nothing above the other's base. -/
theorem not_contains_of_between (h : r.Disjoint r') (hlt : r.base < r'.base)
    (hp : r'.base ≤ p) : ¬ r.Contains p := by
  intro hc
  have hb : r.Contains r'.base := by
    rw [contains_iff] at hc ⊢
    rw [UInt64.lt_iff_toNat_lt] at hlt
    rw [UInt64.le_iff_toNat_le] at hp
    omega
  exact h r'.base hb r'.contains_base

/-- The highest address is in no range. -/
theorem lt_max_of_contains (h : r.Contains p) : p.toNat < UInt64.size - 1 := by
  have hc := contains_iff.mp h
  have hfits := r.fits
  omega

end Range

end Carmot.Lib
