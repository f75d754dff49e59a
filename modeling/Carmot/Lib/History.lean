/-
What a loop does to one memory cell, read off its access history.

A history is the list of the loop's iterations, each the list of reads
and writes the iteration makes of the cell, in order. Its usage has
two parts:

- the input bit: the very first access is a read, so the cell's value
  from before the loop matters;
- the output level: `none` for a cell never written; otherwise, with
  the first writing iteration as the reference, `transfer` when some
  later iteration touches the cell first with a read (a value flows
  from iteration to iteration), `cloneable` when later iterations
  touch it but each writes first, `plain` when no later one does.

Levels are ordered none < plain < cloneable < transfer and a usage is
a pair, ordered componentwise; the join of usages is the lattice
supremum.

# How a history grows

`level_append_singleton` is the one recursion everything rests on: the
level after one more iteration depends on the level before, on whether
anything was written before, and on the new iteration alone. From it
come monotonicity (`usage_le_append`) and the step rules for one more
access inside the last iteration.
-/
import Mathlib.Order.Lattice
import Mathlib.Order.BoundedOrder.Basic
import Mathlib.Order.Nat

namespace Carmot.Lib

/-- One access to a cell. -/
inductive Rw
  | read | write
  deriving DecidableEq, Repr

/-- Where an element stands once one more was appended: it is the new
one, or it stood there before. -/
theorem concat_eq_append_cons {α : Type*} {xs pre post : List α} {x y : α}
    (h : xs ++ [x] = pre ++ y :: post) :
    (pre = xs ∧ y = x ∧ post = []) ∨ ∃ post', post = post' ++ [x] ∧ xs = pre ++ y :: post' := by
  rcases List.eq_nil_or_concat post with rfl | ⟨post', z, rfl⟩
  · left
    obtain ⟨hpre, hlast⟩ := List.append_inj' h rfl
    injection hlast with hlast
    exact ⟨hpre.symm, hlast.symm, rfl⟩
  · right
    rw [List.concat_eq_append, ← List.cons_append, ← List.append_assoc] at h
    obtain ⟨hpre, hlast⟩ := List.append_inj' h rfl
    injection hlast with hlast
    rw [hlast, List.concat_eq_append]
    exact ⟨post', rfl, hpre⟩

/-- The same by position. -/
theorem getElem?_concat_eq_some {α : Type*} {xs : List α} {x y : α} {i : Nat} :
    (xs ++ [x])[i]? = some y ↔ xs[i]? = some y ∨ (i = xs.length ∧ y = x) := by
  rcases Nat.lt_trichotomy i xs.length with hlt | rfl | hgt
  · rw [List.getElem?_append_left hlt]
    simp [hlt.ne]
  · rw [List.getElem?_concat_length, List.getElem?_eq_none (Nat.le_refl _)]
    simp [eq_comm]
  · have hlong : (xs ++ [x]).length ≤ i := by
      rw [List.length_append]
      exact hgt
    rw [List.getElem?_eq_none hlong, List.getElem?_eq_none (Nat.le_of_lt hgt)]
    simp [hgt.ne']

-- ============================================================== levels

/-- How far a cell's written value travels. -/
inductive Level
  | none | plain | cloneable | transfer
  deriving DecidableEq, Repr

namespace Level

/-- Position in the order. -/
def rank : Level → Nat
  | none => 0
  | plain => 1
  | cloneable => 2
  | transfer => 3

theorem rank_injective : Function.Injective rank := by
  intro a b h
  cases a <;> cases b <;> first | rfl | cases h

instance : LinearOrder Level := LinearOrder.lift' rank rank_injective

instance : OrderBot Level where
  bot := none
  bot_le a := Nat.zero_le a.rank

@[simp] theorem none_le (a : Level) : none ≤ a := Nat.zero_le a.rank

@[simp] theorem le_transfer (a : Level) : a ≤ transfer := by
  cases a <;> decide

end Level

/-- Input bit and output level. -/
abbrev Usage := Bool × Level

-- =========================================================== histories

/-- A cell's history: the accesses of each iteration, in order. -/
abbrev History := List (List Rw)

namespace History

/-- Does an iteration write the cell? -/
def writes (it : List Rw) : Bool := it.contains .write

/-- Does an iteration touch the cell first with a read? -/
def readsFirst (it : List Rw) : Bool := decide (it.head? = some .read)

/-- Was the cell touched at all? -/
def touched (h : History) : Bool := h.any fun it => !it.isEmpty

/-- Is the first access ever made to the cell a read? -/
def input (h : History) : Bool := readsFirst h.flatten

/-- The iterations after the first writing one, if there is one. -/
def afterFirstWrite (h : History) : Option History :=
  (h.findIdx? writes).map fun w => h.drop (w + 1)

/-- The output level: by what the iterations after the first writing
one do. -/
def level (h : History) : Level :=
  match h.afterFirstWrite with
  | none => .none
  | some later =>
      if later.any readsFirst then .transfer
      else if later.any fun it => !it.isEmpty then .cloneable
      else .plain

/-- Input bit and output level together. -/
def usage (h : History) : Usage := (h.input, h.level)

-- ==================================================== one more iteration

theorem touched_append (h g : History) :
    (h ++ g).touched = (h.touched || g.touched) := List.any_append

theorem untouched_iff {h : History} : h.touched = false ↔ h.flatten = [] := by
  rw [List.flatten_eq_nil_iff, touched, List.any_eq_false]
  simp

theorem afterFirstWrite_append (h g : History) :
    (h ++ g).afterFirstWrite = match h.afterFirstWrite with
      | some later => some (later ++ g)
      | none => g.afterFirstWrite := by
  unfold afterFirstWrite
  rw [List.findIdx?_append]
  cases hw : h.findIdx? writes with
  | some w =>
      have hlt : w < h.length := (List.findIdx?_eq_some_iff_getElem.mp hw).1
      show some ((h ++ g).drop (w + 1)) = some (h.drop (w + 1) ++ g)
      rw [List.drop_append_of_le_length (by omega)]
  | none =>
      cases hg : g.findIdx? writes with
      | none => rfl
      | some w =>
          show some ((h ++ g).drop (w + h.length + 1)) = some (g.drop (w + 1))
          rw [show w + h.length + 1 = h.length + (w + 1) by omega,
            List.drop_length_add_append]

/-- No writing iteration: the level is none. -/
theorem level_eq_none_iff {h : History} :
    h.level = .none ↔ h.afterFirstWrite = none := by
  unfold level
  cases h.afterFirstWrite with
  | none => simp
  | some later =>
      simp only [reduceCtorEq, iff_false]
      split
      · simp
      · split <;> simp

/-- The level after one more iteration. -/
theorem level_append_singleton (h : History) (it : List Rw) :
    (h ++ [it]).level =
      if h.level = .none then (if writes it then .plain else .none)
      else if it = [] then h.level
      else if readsFirst it then .transfer
      else max h.level .cloneable := by
  unfold level
  rw [afterFirstWrite_append]
  cases hl : h.afterFirstWrite with
  | none =>
      simp only [if_true]
      unfold afterFirstWrite
      cases hw : writes it with
      | true => simp [List.findIdx?_cons, hw]
      | false => simp [List.findIdx?_cons, hw]
  | some later =>
      have hne : (if later.any readsFirst then Level.transfer
          else if later.any fun it => !it.isEmpty then .cloneable
          else .plain) ≠ .none := by
        split
        · simp
        · split <;> simp
      simp only [if_neg hne]
      cases it with
      | nil => simp [List.any_append, readsFirst]
      | cons a it =>
          cases a with
          | read => simp [List.any_append, readsFirst]
          | write =>
              simp only [List.any_append, List.any_cons, List.any_nil,
                readsFirst, List.head?_cons, Option.some.injEq, reduceCtorEq,
                decide_false, Bool.or_false, List.isEmpty_cons, Bool.not_false,
                Bool.or_true, if_true, if_false]
              split
              · rfl
              · split <;> rfl

/-- The first access stays the first access. -/
theorem input_append {h : History} (ht : h.touched = true) (g : History) :
    (h ++ g).input = h.input := by
  unfold input readsFirst
  rw [List.flatten_append]
  cases hf : h.flatten with
  | nil => rw [untouched_iff.mpr hf] at ht; cases ht
  | cons a l => rfl

/-- With nothing touched before, the first access is the new
iteration's. -/
theorem input_append_of_untouched {h : History} (ht : h.touched = false)
    (g : History) : (h ++ g).input = g.input := by
  unfold input readsFirst
  rw [List.flatten_append, untouched_iff.mp ht, List.nil_append]

/-- Levels only grow. -/
theorem level_le_append (h g : History) : h.level ≤ (h ++ g).level := by
  induction g generalizing h with
  | nil => rw [List.append_nil]
  | cons it g ih =>
      rw [show h ++ it :: g = (h ++ [it]) ++ g by simp]
      refine le_trans ?_ (ih (h ++ [it]))
      rw [level_append_singleton]
      split
      next hn => rw [hn]; exact Level.none_le _
      next =>
        split
        · exact le_refl _
        · split
          · exact Level.le_transfer _
          · exact le_max_left _ _

/-- The usage of a touched cell only grows. -/
theorem usage_le_append {h : History} (ht : h.touched = true) (g : History) :
    h.usage ≤ (h ++ g).usage := by
  refine Prod.mk_le_mk.mpr ⟨?_, level_le_append h g⟩
  rw [input_append ht]

/-- An untouched cell was never written. -/
theorem level_of_untouched {h : History} (ht : h.touched = false) :
    h.level = .none := by
  rw [level_eq_none_iff]
  unfold afterFirstWrite
  rw [Option.map_eq_none_iff, List.findIdx?_eq_none_iff]
  intro it hit
  rw [List.flatten_eq_nil_iff.mp (untouched_iff.mp ht) it hit]
  rfl

/-- A touched cell that was never written was read first. -/
theorem input_of_level_none (h : History) (ht : h.touched = true)
    (hl : h.level = .none) : h.input = true := by
  rw [level_eq_none_iff, afterFirstWrite, Option.map_eq_none_iff,
    List.findIdx?_eq_none_iff] at hl
  unfold input readsFirst
  cases hf : h.flatten with
  | nil => rw [untouched_iff.mpr hf] at ht; cases ht
  | cons a l =>
      cases a with
      | read => rfl
      | write =>
          have hmem : Rw.write ∈ h.flatten := by
            rw [hf]
            exact List.mem_cons_self ..
          obtain ⟨it, hit, hw⟩ := List.mem_flatten.mp hmem
          have hno := hl it hit
          simp [writes, hw] at hno

/-- An iteration that leaves the cell alone changes nothing. -/
theorem usage_append_nil (h : History) : (h ++ [[]]).usage = h.usage := by
  have hlevel : (h ++ [[]]).level = h.level := by
    rw [level_append_singleton]
    split
    next hn => rw [hn]; rfl
    next => rfl
  unfold usage
  rw [hlevel]
  cases ht : h.touched with
  | true => rw [input_append ht]
  | false =>
      rw [input_append_of_untouched ht]
      unfold input
      rw [untouched_iff.mp ht]
      rfl

/-- Nor do any number of them. -/
theorem usage_append_untouched (h : History) {g : History} (hg : g.touched = false) :
    (h ++ g).usage = h.usage := by
  induction g generalizing h with
  | nil => rw [List.append_nil]
  | cons it g ih =>
      have hflat := untouched_iff.mp hg
      rw [List.flatten_cons, List.append_eq_nil_iff] at hflat
      rw [hflat.1, show h ++ [] :: g = (h ++ [[]]) ++ g by simp,
        ih (h ++ [[]]) (untouched_iff.mpr hflat.2), usage_append_nil]

end History

end Carmot.Lib
