/-
Walks along links.

A link leads from a thing to the next one, or nowhere. `walk` lists the
things a loop visits that goes on until there is no next one, and is
`none` when it has not ended within a number of turns; on links that run
in a circle no number is enough.

Links that go down in a rank, among things that they do not leave
(`Descends`), are walked to their end in as many turns as the rank of
the first thing says (`Descends.walk_ends`).
-/
import Mathlib.Data.Option.Basic

namespace Carmot.Lib

variable {α : Type*}

/-- What a loop along the links visits within `turns` turns. -/
def walk (next : α → Option α) : Nat → Option α → Option (List α)
  | _, none => some []
  | 0, some _ => none
  | turns + 1, some a => (walk next turns (next a)).map (a :: ·)

@[simp] theorem walk_none (next : α → Option α) (turns : Nat) :
    walk next turns none = some [] := by
  unfold walk
  rfl

theorem eq_nil_of_walk_none {next : α → Option α} {turns : Nat} {l : List α}
    (h : walk next turns none = some l) : l = [] := by
  rw [walk_none] at h
  injection h with h
  exact h.symm

/-- A walk that ends is its first thing and the walk from the next. -/
theorem eq_cons_of_walk {next : α → Option α} {turns : Nat} {a : α} {l : List α}
    (h : walk next (turns + 1) (some a) = some l) :
    ∃ rest, walk next turns (next a) = some rest ∧ l = a :: rest := by
  obtain ⟨rest, hrest, hl⟩ := Option.map_eq_some_iff.mp h
  exact ⟨rest, hrest, hl.symm⟩

/-- Links lead to things of the kind `on`, of a lower rank. -/
structure Descends (next : α → Option α) (on : α → Prop) (rank : α → Nat) : Prop where
  stays : ∀ a b, on a → next a = some b → on b
  lt : ∀ a b, on a → next a = some b → rank b < rank a

/-- A walk down ends. -/
theorem Descends.walk_ends {next : α → Option α} {on : α → Prop} {rank : α → Nat}
    (h : Descends next on rank) (turns : Nat) :
    ∀ start : Option α, (∀ a, start = some a → on a ∧ rank a < turns) →
      ∃ l, walk next turns start = some l := by
  induction turns with
  | zero =>
      intro start hstart
      cases start with
      | none => exact ⟨[], walk_none next 0⟩
      | some a => exact absurd (hstart a rfl).2 (Nat.not_lt_zero _)
  | succ turns ih =>
      intro start hstart
      cases start with
      | none => exact ⟨[], walk_none next _⟩
      | some a =>
          obtain ⟨hon, hlt⟩ := hstart a rfl
          have hnext : ∀ b, next a = some b → on b ∧ rank b < turns := by
            intro b hb
            have hdown := h.lt a b hon hb
            exact ⟨h.stays a b hon hb, by omega⟩
          obtain ⟨l, hl⟩ := ih (next a) hnext
          exact ⟨a :: l, by rw [walk, hl]; rfl⟩

end Carmot.Lib
