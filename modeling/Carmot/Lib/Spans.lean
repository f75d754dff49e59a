/-
Marks on a line: single points, and spans given by their two ends.

A list of marks can be written down as the set of its ends with one bit,
whether there is a span at all. What the marks cover is more than that:
which ends belong together is lost.

The start of a mark (a point, or a span's first end) is restricted to a
down-closed part of the line; a span's second end is free.
`covered_determined_iff` says when the ends and the bit are enough: there
is no span, or the ends in that part leave no gap. Where they leave one,
the marks can be rearranged over the same ends, once with the gap covered
and once without.
-/
import Mathlib.Order.Lattice
import Mathlib.Data.List.Basic

namespace Carmot.Lib

/-- A point, or a span. -/
inductive Mark (α : Type)
  | point (x : α)
  | span (x y : α)
  deriving DecidableEq, Repr

namespace Mark

variable {α : Type}

/-- The ends: a point is its own. -/
def ends : Mark α → List α
  | point x => [x]
  | span x y => [x, y]

def isSpan : Mark α → Bool
  | point _ => false
  | span _ _ => true

/-- The point, or the span's first end. -/
def start : Mark α → α
  | point x => x
  | span x _ => x

/-- What lies between the ends, in whichever order they are. -/
def Covers [LinearOrder α] (m : Mark α) (z : α) : Prop :=
  match m with
  | point x => z = x
  | span x y => (x ≤ z ∧ z ≤ y) ∨ (y ≤ z ∧ z ≤ x)

instance [LinearOrder α] (m : Mark α) (z : α) : Decidable (m.Covers z) :=
  match m with
  | point x => inferInstanceAs (Decidable (z = x))
  | span x y => inferInstanceAs (Decidable ((x ≤ z ∧ z ≤ y) ∨ (y ≤ z ∧ z ≤ x)))

/-- The ends of some marks. -/
def IsEnd (ms : List (Mark α)) (z : α) : Prop := ∃ m ∈ ms, z ∈ m.ends

/-- What some marks cover. -/
def Covered [LinearOrder α] (ms : List (Mark α)) (z : α) : Prop := ∃ m ∈ ms, m.Covers z

section Covered

variable [LinearOrder α] {m : Mark α} {ms ms' : List (Mark α)} {z : α}

theorem covers_of_mem_ends (h : z ∈ m.ends) : m.Covers z := by
  cases m with
  | point x => exact List.mem_singleton.mp h
  | span x y =>
      rcases List.mem_cons.mp h with rfl | h
      · rcases le_total z y with hle | hle
        · exact Or.inl ⟨le_refl z, hle⟩
        · exact Or.inr ⟨hle, le_refl z⟩
      · cases List.mem_singleton.mp h
        rcases le_total x z with hle | hle
        · exact Or.inl ⟨hle, le_refl z⟩
        · exact Or.inr ⟨le_refl z, hle⟩

theorem IsEnd.covered (h : IsEnd ms z) : Covered ms z := by
  obtain ⟨m, hm, hz⟩ := h
  exact ⟨m, hm, covers_of_mem_ends hz⟩

/-- Without a span the ends are all there is. -/
theorem covered_iff_isEnd (hno : ms.any isSpan = false) : Covered ms z ↔ IsEnd ms z := by
  refine exists_congr fun m => and_congr_right fun hm => ?_
  cases m with
  | point x => exact List.mem_singleton.symm
  | span x y =>
      exact absurd rfl (List.any_eq_false.mp hno _ hm)

end Covered

-- =============================================== the ends are not enough

section Determined

variable [LinearOrder α] (P : α → Prop)

/-- The ends in the part leave no gap. -/
def NoGap (ms : List (Mark α)) : Prop :=
  ∀ x y z, IsEnd ms x → IsEnd ms y → P x → P y → x ≤ z → z ≤ y → IsEnd ms z

variable {P} {ms ms' : List (Mark α)} {z : α}

/-- Without a gap, what is covered can be read off the ends: the ends,
and everything up to an end outside the part. -/
theorem NoGap.covered_iff (hdown : ∀ x y, x ≤ y → P y → P x) (hstart : ∀ m ∈ ms, P m.start)
    (hgap : NoGap P ms) :
    Covered ms z ↔ IsEnd ms z
      ∨ ∃ x y, IsEnd ms x ∧ P x ∧ IsEnd ms y ∧ ¬ P y ∧ x ≤ z ∧ z ≤ y := by
  constructor
  · rintro ⟨m, hm, hz⟩
    cases m with
    | point x => exact Or.inl ⟨_, hm, List.mem_singleton.mpr hz⟩
    | span x y =>
        have hx : IsEnd ms x := ⟨_, hm, List.mem_cons_self ..⟩
        have hy : IsEnd ms y := ⟨_, hm, List.mem_cons_of_mem _ (List.mem_singleton_self y)⟩
        have hPx : P x := hstart _ hm
        by_cases hPy : P y
        · rcases hz with ⟨hxz, hzy⟩ | ⟨hyz, hzx⟩
          · exact Or.inl (hgap x y z hx hy hPx hPy hxz hzy)
          · exact Or.inl (hgap y x z hy hx hPy hPx hyz hzx)
        · rcases hz with ⟨hxz, hzy⟩ | ⟨hyz, hzx⟩
          · exact Or.inr ⟨x, y, hx, hPx, hy, hPy, hxz, hzy⟩
          · exact absurd (hdown y x (le_trans hyz hzx) hPx) hPy
  · rintro (hz | ⟨x, y, hx, hPx, ⟨m, hm, hy⟩, hPy, hxz, hzy⟩)
    · exact hz.covered
    · -- the end outside the part closes a span that starts in it
      cases m with
      | point b =>
          cases List.mem_singleton.mp hy
          exact absurd (hstart _ hm) hPy
      | span b e =>
          have hPb : P b := hstart _ hm
          have hend : y = e := by
            rcases List.mem_cons.mp hy with rfl | h
            · exact absurd hPb hPy
            · exact List.mem_singleton.mp h
          subst hend
          rcases le_total b z with hbz | hzb
          · exact ⟨_, hm, Or.inl ⟨hbz, hzy⟩⟩
          · have hb : IsEnd ms b := ⟨_, hm, List.mem_cons_self ..⟩
            exact (hgap x b z hx hb hPx hPb hxz hzb).covered

end Determined

-- ========================================================= rearranging

section Sparse

variable {P : α → Prop} [DecidablePred P] {ms : List (Mark α)} {y e : α}

/-- The marks rearranged to cover little: every end in the part by
itself, the others from `y` on. -/
def sparse (P : α → Prop) [DecidablePred P] (y : α) (ms : List (Mark α)) : List (Mark α) :=
  (ms.flatMap ends).map fun e => if P e then span e e else span y e

theorem mem_sparse {m : Mark α} :
    m ∈ sparse P y ms ↔
      ∃ e, IsEnd ms e ∧ ((P e ∧ m = span e e) ∨ (¬ P e ∧ m = span y e)) := by
  unfold sparse
  rw [List.mem_map]
  refine exists_congr fun e => and_congr List.mem_flatMap ?_
  by_cases hP : P e
  · simp [hP, eq_comm]
  · simp [hP, eq_comm]

theorem start_sparse (hy : P y) : ∀ m ∈ sparse P y ms, P m.start := by
  intro m hm
  obtain ⟨e, -, ⟨hP, rfl⟩ | ⟨-, rfl⟩⟩ := mem_sparse.mp hm
  · exact hP
  · exact hy

theorem isEnd_sparse (hy : IsEnd ms y) : IsEnd (sparse P y ms) e ↔ IsEnd ms e := by
  constructor
  · rintro ⟨m, hm, he⟩
    obtain ⟨e', he', ⟨-, rfl⟩ | ⟨-, rfl⟩⟩ := mem_sparse.mp hm
    · simp only [ends, List.mem_cons, List.not_mem_nil, or_false, or_self] at he
      exact he ▸ he'
    · simp only [ends, List.mem_cons, List.not_mem_nil, or_false] at he
      rcases he with rfl | rfl
      · exact hy
      · exact he'
  · intro he
    by_cases hP : P e
    · exact ⟨span e e, mem_sparse.mpr ⟨e, he, Or.inl ⟨hP, rfl⟩⟩, List.mem_cons_self ..⟩
    · refine ⟨span y e, mem_sparse.mpr ⟨e, he, Or.inr ⟨hP, rfl⟩⟩, ?_⟩
      exact List.mem_cons_of_mem _ (List.mem_singleton_self e)

theorem any_isSpan_sparse (hy : IsEnd ms y) : (sparse P y ms).any isSpan = true := by
  obtain ⟨m, hm, he⟩ := (isEnd_sparse (P := P) hy).mpr hy
  refine List.any_eq_true.mpr ⟨m, hm, ?_⟩
  obtain ⟨e, -, ⟨-, rfl⟩ | ⟨-, rfl⟩⟩ := mem_sparse.mp hm
  · rfl
  · rfl

/-- It leaves a gap below `y` open. -/
theorem not_covered_sparse [LinearOrder α] {z : α} (hdown : ∀ x y, x ≤ y → P y → P x) (hy : P y)
    (hzy : z < y) (hz : ¬ IsEnd ms z) : ¬ Covered (sparse P y ms) z := by
  rintro ⟨m, hm, hcovers⟩
  obtain ⟨e, he, ⟨-, rfl⟩ | ⟨hP, rfl⟩⟩ := mem_sparse.mp hm
  · have heq : z = e := by
      rcases hcovers with h | h
      · exact le_antisymm h.2 h.1
      · exact le_antisymm h.2 h.1
    exact hz (heq ▸ he)
  · rcases hcovers with h | h
    · exact absurd h.1 (not_le_of_gt hzy)
    · exact hP (hdown e y (le_trans h.1 (le_of_lt hzy)) hy)

end Sparse

/-- The ends and the bit determine what is covered exactly when there is
no span, or the ends leave no gap. -/
theorem covered_determined_iff [LinearOrder α] {P : α → Prop} [DecidablePred P]
    (hdown : ∀ x y, x ≤ y → P y → P x) {ms : List (Mark α)} (hstart : ∀ m ∈ ms, P m.start) :
    (∀ ms' : List (Mark α), (∀ m ∈ ms', P m.start) → (∀ z, IsEnd ms z ↔ IsEnd ms' z) →
        ms.any isSpan = ms'.any isSpan → ∀ z, Covered ms z ↔ Covered ms' z) ↔
      ms.any isSpan = false ∨ NoGap P ms := by
  constructor
  · intro hdet
    cases hspan : ms.any isSpan with
    | false => exact Or.inl rfl
    | true =>
        refine Or.inr fun x y z hx hy hPx hPy hxz hzy => ?_
        by_contra hz
        have hlt : z < y := lt_of_le_of_ne hzy fun h => hz (h ▸ hy)
        -- with the span from `x` to `y` added the ends are the same
        have hdense := hdet (span x y :: ms)
          (fun m hm => (List.mem_cons.mp hm).elim (fun h => h ▸ hPx) (hstart m))
          (fun e => by
            unfold IsEnd
            rw [List.exists_mem_cons_iff]
            refine ⟨Or.inr, fun h => h.elim (fun he => ?_) id⟩
            rcases List.mem_cons.mp he with rfl | he
            · exact hx
            · exact List.mem_singleton.mp he ▸ hy)
          (by rw [hspan]; rfl) z
        have hsparse := hdet (sparse P y ms) (start_sparse hPy)
          (fun e => (isEnd_sparse hy).symm) (by rw [hspan, any_isSpan_sparse hy]) z
        have hcovered := hdense.mpr ⟨_, List.mem_cons_self .., Or.inl ⟨hxz, hzy⟩⟩
        exact not_covered_sparse hdown hPy hlt hz (hsparse.mp hcovered)
  · rintro (hno | hgap) ms' hstart' hends hspans z
    · rw [covered_iff_isEnd hno, covered_iff_isEnd (hspans ▸ hno), hends]
    · have hgap' : NoGap P ms' := by
        intro x y z hx hy hPx hPy hxz hzy
        exact (hends z).mp (hgap x y z ((hends x).mpr hx) ((hends y).mpr hy) hPx hPy hxz hzy)
      rw [hgap.covered_iff hdown hstart, hgap'.covered_iff hdown hstart']
      simp only [hends]

end Mark

end Carmot.Lib
