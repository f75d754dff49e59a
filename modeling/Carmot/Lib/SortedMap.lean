/-
Association lists kept in strictly increasing key order: the ordered
map of a C++ standard library, as far as a program can observe one.

Insertion has two spellings there and they differ on a present key:
`insert` keeps the stored value, `insert_or_assign` replaces it. The
ordered searches are the two an iterator gives: `lowerBound` is the
first entry whose key is not below the probe, `pred` the entry an
iterator standing at the lower bound reaches by one decrement. Where a
program's iterator stands matters, `lowerPos` is its position and
`decr` the decrement, which position 0 does not have.

Every search is characterised through the lookup `find?` alone
(`lowerBound_eq_some`, `pred_eq_some`, and the two `_eq_none` forms),
so a client never reasons about the list underneath.
-/
import Mathlib.Order.Basic

namespace Carmot.Lib

set_option linter.unusedSectionVars false

/-- A finite map whose entries are stored in strictly increasing key
order; the order is a field, so an unsorted table cannot be built. -/
structure SortedMap (K V : Type) [LT K] where
  /-- The stored pairs, ascending. -/
  entries : List (K × V)
  /-- Keys strictly increase along the list. -/
  sorted : entries.Pairwise fun a b => a.1 < b.1

/-- One decrement of an iterator; there is none at `begin()`. -/
def decr : Nat → Option Nat
  | 0 => none
  | i + 1 => some i

namespace SortedMap

variable {K V : Type} [LE K] [LT K] [DecidableLT K] [DecidableEq K]

-- ======================================================== operations

/-- The map with no entry. -/
def empty : SortedMap K V := ⟨[], List.Pairwise.nil⟩

/-- The value stored under `k`. -/
def find? (m : SortedMap K V) (k : K) : Option V :=
  (m.entries.find? fun e => decide (e.1 = k)).map Prod.snd

/-- The first entry whose key is not below `k`. -/
def lowerBound (m : SortedMap K V) (k : K) : Option (K × V) :=
  m.entries.find? fun e => !decide (e.1 < k)

/-- The last entry whose key is below `k`: one decrement away from the
lower bound. -/
def pred (m : SortedMap K V) (k : K) : Option (K × V) :=
  (m.entries.filter fun e => decide (e.1 < k)).getLast?

/-- The position `lower_bound` returns: the number of entries below the
probe. The entry count itself is `end()`. -/
def lowerPos (m : SortedMap K V) (k : K) : Nat :=
  (m.entries.filter fun e => decide (e.1 < k)).length

/-- Remove the entry stored under `k`, if any. -/
def erase (m : SortedMap K V) (k : K) : SortedMap K V where
  entries := m.entries.filter fun e => decide (e.1 ≠ k)
  sorted := m.sorted.filter _

/-- Store `v` under `k`, replacing what was there: everything below,
the new pair, everything above. -/
def insertOrAssign [Std.IsLinearOrder K] [Std.LawfulOrderLT K]
    (m : SortedMap K V) (k : K) (v : V) : SortedMap K V where
  entries := (m.entries.filter fun e => decide (e.1 < k))
    ++ (k, v) :: m.entries.filter fun e => decide (k < e.1)
  sorted := by
    refine List.pairwise_append.mpr ⟨m.sorted.filter _, ?_, ?_⟩
    · refine List.pairwise_cons.mpr ⟨?_, m.sorted.filter _⟩
      intro e he
      simpa using (List.mem_filter.mp he).2
    · intro a ha b hb
      have hak : a.1 < k := by simpa using (List.mem_filter.mp ha).2
      rcases List.mem_cons.mp hb with rfl | hb
      · exact hak
      · have hkb : k < b.1 := by simpa using (List.mem_filter.mp hb).2
        exact Std.lt_trans hak hkb

/-- Store `v` under `k` unless the key is already present. -/
def insert [Std.IsLinearOrder K] [Std.LawfulOrderLT K]
    (m : SortedMap K V) (k : K) (v : V) : SortedMap K V :=
  match m.find? k with
  | some _ => m
  | none => m.insertOrAssign k v

/-- Every entry of another map, in order; a present key is replaced only
with `overwrite`. -/
def merge [Std.IsLinearOrder K] [Std.LawfulOrderLT K]
    (m other : SortedMap K V) (overwrite : Bool) : SortedMap K V :=
  other.entries.foldl
    (fun m e => if overwrite then m.insertOrAssign e.1 e.2 else m.insert e.1 e.2) m

-- ================================================ membership and lookup

section Lookup

variable [Std.IsLinearOrder K] [Std.LawfulOrderLT K]

/-- A stored pair is what the lookup of its key returns: keys are
distinct because they increase. -/
theorem mem_entries_iff {m : SortedMap K V} {k : K} {v : V} :
    (k, v) ∈ m.entries ↔ m.find? k = some v := by
  obtain ⟨l, hl⟩ := m
  simp only [find?]
  induction l with
  | nil => simp
  | cons e l ih =>
      obtain ⟨hhd, htl⟩ := List.pairwise_cons.mp hl
      by_cases hk : e.1 = k
      · subst hk
        have hnot : ∀ w, (e.1, w) ∉ l := by
          intro w hw
          have hlt : e.1 < e.1 := hhd (e.1, w) hw
          exact Std.lt_irrefl hlt
        simp only [List.mem_cons, hnot, or_false, List.find?_cons,
          decide_true, Option.map_some, Option.some.injEq]
        constructor
        · intro h
          rw [← h]
        · intro h
          rw [← h]
      · have hne : (k, v) ≠ e := fun h => hk (by rw [← h])
        simp only [List.mem_cons, hne, false_or, List.find?_cons, hk,
          decide_false]
        exact ih htl

/-- An absent key has no stored pair. -/
theorem find?_eq_none {m : SortedMap K V} {k : K} :
    m.find? k = none ↔ ∀ v, (k, v) ∉ m.entries := by
  constructor
  · intro h v hv
    rw [mem_entries_iff.mp hv] at h
    cases h
  · intro h
    cases hf : m.find? k with
    | none => rfl
    | some v => exact absurd (mem_entries_iff.mpr hf) (h v)

@[simp] theorem find?_empty (k : K) :
    (empty : SortedMap K V).find? k = none := rfl

/-- Two maps with the same stored pairs answer every lookup alike. -/
theorem find?_congr {m m' : SortedMap K V} {k : K}
    (h : ∀ v, (k, v) ∈ m.entries ↔ (k, v) ∈ m'.entries) :
    m.find? k = m'.find? k := by
  cases hf : m'.find? k with
  | none =>
      rw [find?_eq_none] at hf ⊢
      exact fun v hv => hf v ((h v).mp hv)
  | some v =>
      rw [← mem_entries_iff] at hf ⊢
      exact (h v).mpr hf

/-- Erasing a key hides it and nothing else. -/
theorem find?_erase (m : SortedMap K V) (k k' : K) :
    (m.erase k).find? k' = if k' = k then none else m.find? k' := by
  by_cases hk : k' = k
  · rw [if_pos hk, find?_eq_none]
    intro v hv
    have := (List.mem_filter.mp hv).2
    simp [hk] at this
  · rw [if_neg hk]
    refine find?_congr fun v => ?_
    simp [erase, List.mem_filter, hk]

/-- Replacing insertion sets its key and nothing else. -/
theorem find?_insertOrAssign (m : SortedMap K V) (k k' : K) (v : V) :
    (m.insertOrAssign k v).find? k'
      = if k' = k then some v else m.find? k' := by
  by_cases hk : k' = k
  · rw [if_pos hk, ← mem_entries_iff]
    simp [insertOrAssign, hk]
  · rw [if_neg hk]
    refine find?_congr fun w => ?_
    have hsplit : k' < k ∨ k < k' := by
      rcases Std.lt_trichotomy k' k with h | h | h
      · exact Or.inl h
      · exact absurd h hk
      · exact Or.inr h
    simp only [insertOrAssign, List.mem_append, List.mem_filter,
      List.mem_cons, Prod.mk.injEq, hk, false_and, false_or,
      decide_eq_true_eq]
    constructor
    · intro h
      rcases h with ⟨h, -⟩ | ⟨h, -⟩
      · exact h
      · exact h
    · intro h
      rcases hsplit with hlt | hlt
      · exact Or.inl ⟨h, hlt⟩
      · exact Or.inr ⟨h, hlt⟩

/-- Keeping insertion: a present key keeps its value. -/
theorem find?_insert (m : SortedMap K V) (k k' : K) (v : V) :
    (m.insert k v).find? k'
      = if k' = k then some ((m.find? k).getD v) else m.find? k' := by
  unfold insert
  cases hf : m.find? k with
  | some w =>
      by_cases hk : k' = k
      · simp [hk, hf]
      · simp [hk]
  | none => simp [find?_insertOrAssign]

/-- A merge answers with the map that has priority, else with the
other. -/
theorem find?_merge (m other : SortedMap K V) (overwrite : Bool) (k : K) :
    (m.merge other overwrite).find? k
      = if overwrite then (other.find? k).or (m.find? k)
        else (m.find? k).or (other.find? k) := by
  obtain ⟨l, hl⟩ := other
  unfold merge
  induction l generalizing m with
  | nil => cases overwrite <;> simp [find?]
  | cons e l ih =>
      obtain ⟨hhd, htl⟩ := List.pairwise_cons.mp hl
      have hstep := ih (if overwrite then m.insertOrAssign e.1 e.2 else m.insert e.1 e.2) htl
      simp only [List.foldl_cons]
      rw [hstep]
      have hrest : (⟨e :: l, hl⟩ : SortedMap K V).find? k
          = if k = e.1 then some e.2 else (⟨l, htl⟩ : SortedMap K V).find? k := by
        by_cases hk : k = e.1
        · simp [find?, hk]
        · simp [find?, hk, Ne.symm hk]
      -- the rest has no entry under the head's key
      have hnone : k = e.1 → (⟨l, htl⟩ : SortedMap K V).find? k = none := by
        intro hk
        rw [find?_eq_none]
        intro v hv
        have hlt : e.1 < k := hhd (k, v) hv
        rw [hk] at hlt
        exact Std.lt_irrefl hlt
      rw [hrest]
      cases overwrite with
      | true =>
          simp only [if_true, find?_insertOrAssign]
          by_cases hk : k = e.1
          · rw [hnone hk, if_pos hk, if_pos hk]
            rfl
          · rw [if_neg hk, if_neg hk]
      | false =>
          simp only [Bool.false_eq_true, if_false, find?_insert]
          by_cases hk : k = e.1
          · subst hk
            cases m.find? e.1 <;> simp
          · simp [hk]

/-- A merge of maps that share no key has the entries of both. -/
theorem find?_merge_eq_some {m other : SortedMap K V} {overwrite : Bool} {k : K} {v : V}
    (h : m.find? k = none ∨ other.find? k = none) :
    (m.merge other overwrite).find? k = some v ↔
      m.find? k = some v ∨ other.find? k = some v := by
  rw [find?_merge]
  cases overwrite with
  | true => rcases h with h | h <;> simp [h]
  | false => rcases h with h | h <;> simp [h]

-- ==================================================== ordered searches

/-- The lower bound is the least stored key not below the probe. -/
theorem lowerBound_eq_some {m : SortedMap K V} {k k' : K} {v : V} :
    m.lowerBound k = some (k', v) ↔
      m.find? k' = some v ∧ ¬ k' < k
        ∧ ∀ j, j < k' → ¬ j < k → m.find? j = none := by
  rw [← mem_entries_iff]
  simp only [find?_eq_none]
  obtain ⟨l, hl⟩ := m
  simp only [lowerBound]
  induction l with
  | nil => simp
  | cons e l ih =>
      obtain ⟨hhd, htl⟩ := List.pairwise_cons.mp hl
      by_cases he : e.1 < k
      · -- the head is skipped; it also can never be the bound
        have hne : ¬ k' < k → (k', v) ≠ e := by
          intro hk h
          exact hk (by rw [← h] at he; exact he)
        simp only [List.find?_cons, he, decide_true, Bool.not_true]
        rw [ih htl]
        constructor
        · intro h
          obtain ⟨hmem, hk, hmin⟩ := h
          refine ⟨List.mem_cons_of_mem _ hmem, hk, fun j hj hjk w hw => ?_⟩
          rcases List.mem_cons.mp hw with hw | hw
          · exact hjk (by rw [← hw] at he; exact he)
          · exact hmin j hj hjk w hw
        · intro h
          obtain ⟨hmem, hk, hmin⟩ := h
          refine ⟨?_, hk, fun j hj hjk w hw =>
            hmin j hj hjk w (List.mem_cons_of_mem _ hw)⟩
          rcases List.mem_cons.mp hmem with h | h
          · exact absurd h (hne hk)
          · exact h
      · -- the head is the bound; everything stored after it is larger
        simp only [List.find?_cons, he, decide_false, Bool.not_false,
          Option.some.injEq]
        constructor
        · intro h
          subst h
          refine ⟨List.mem_cons_self .., he, fun j hj hjk w hw => ?_⟩
          rcases List.mem_cons.mp hw with hw | hw
          · have hjk' : j = k' := congrArg Prod.fst hw
            rw [hjk'] at hj
            exact Std.lt_irrefl hj
          · exact Std.lt_irrefl (Std.lt_trans hj (hhd _ hw))
        · intro h
          obtain ⟨hmem, hk, hmin⟩ := h
          rcases List.mem_cons.mp hmem with h | h
          · exact h.symm
          · exact absurd (List.mem_cons_self ..)
              (hmin e.1 (hhd _ h) he e.2)

/-- A stored key is its own lower bound. -/
theorem lowerBound_of_find {m : SortedMap K V} {k : K} {v : V} (h : m.find? k = some v) :
    m.lowerBound k = some (k, v) :=
  lowerBound_eq_some.mpr ⟨h, Std.lt_irrefl, fun _ hj hj' => absurd hj hj'⟩

/-- No lower bound: every stored key is below the probe. -/
theorem lowerBound_eq_none {m : SortedMap K V} {k : K} :
    m.lowerBound k = none ↔ ∀ j v, m.find? j = some v → j < k := by
  simp only [lowerBound, List.find?_eq_none, ← mem_entries_iff]
  constructor
  · intro h j v hj
    simpa using h (j, v) hj
  · intro h e hj
    obtain ⟨j, v⟩ := e
    simpa using h j v hj

/-- The predecessor is the greatest stored key below the probe. -/
theorem pred_eq_some {m : SortedMap K V} {k k' : K} {v : V}
    (h : m.pred k = some (k', v)) :
    m.find? k' = some v ∧ k' < k
      ∧ ∀ j, k' < j → j < k → m.find? j = none := by
  have hsort := m.sorted.filter fun e => decide (e.1 < k)
  obtain ⟨ys, hys⟩ := List.getLast?_eq_some_iff.mp h
  have hmem : (k', v) ∈ m.entries.filter fun e => decide (e.1 < k) := by
    rw [hys]
    simp
  obtain ⟨hin, hlt⟩ := List.mem_filter.mp hmem
  refine ⟨mem_entries_iff.mp hin, by simpa using hlt, ?_⟩
  intro j hj hjk
  rw [find?_eq_none]
  intro w hw
  have hw' : (j, w) ∈ ys ++ [(k', v)] := by
    rw [← hys]
    exact List.mem_filter.mpr ⟨hw, by simpa using hjk⟩
  rw [hys] at hsort
  rcases List.mem_append.mp hw' with hw' | hw'
  · have := (List.pairwise_append.mp hsort).2.2 _ hw' _ (List.mem_singleton.mpr rfl)
    exact Std.lt_irrefl (Std.lt_trans hj this)
  · have : j = k' := by simpa using congrArg Prod.fst (List.mem_singleton.mp hw')
    rw [this] at hj
    exact Std.lt_irrefl hj

/-- No predecessor: no stored key is below the probe. -/
theorem pred_eq_none {m : SortedMap K V} {k : K} :
    m.pred k = none ↔ ∀ j v, m.find? j = some v → ¬ j < k := by
  simp only [pred, List.getLast?_eq_none_iff, List.filter_eq_nil_iff,
    ← mem_entries_iff]
  constructor
  · intro h j v hj
    simpa using h (j, v) hj
  · intro h e hj
    obtain ⟨j, v⟩ := e
    simpa using h j v hj

-- ================================================== iterator positions

/-- The entries below a probe stand before all others. -/
theorem entries_eq_append (m : SortedMap K V) (k : K) :
    m.entries = (m.entries.filter fun e => decide (e.1 < k))
      ++ m.entries.filter fun e => !decide (e.1 < k) := by
  obtain ⟨l, hl⟩ := m
  show l = l.filter _ ++ l.filter _
  induction l with
  | nil => rfl
  | cons e l ih =>
      obtain ⟨hhd, htl⟩ := List.pairwise_cons.mp hl
      by_cases he : e.1 < k
      · simp only [List.filter_cons, he, decide_true, if_true, Bool.not_true,
          Bool.false_eq_true, if_false, List.cons_append]
        rw [← ih htl]
      · -- everything after the first entry not below the probe is larger still
        have hbelow : ∀ d ∈ e :: l, ¬ d.1 < k := by
          intro d hd hlt
          rcases List.mem_cons.mp hd with rfl | hd
          · exact he hlt
          · exact he (Std.lt_trans (hhd d hd) hlt)
        have hnil : (e :: l).filter (fun d => decide (d.1 < k)) = [] := by
          rw [List.filter_eq_nil_iff]
          intro d hd
          simpa using hbelow d hd
        have hall : (e :: l).filter (fun d => !decide (d.1 < k)) = e :: l := by
          rw [List.filter_eq_self]
          intro d hd
          simpa using hbelow d hd
        rw [hnil, hall, List.nil_append]

/-- The entry at the lower bound's position. -/
theorem getElem?_lowerPos (m : SortedMap K V) (k : K) :
    m.entries[m.lowerPos k]? = m.lowerBound k := by
  have hsplit := m.entries_eq_append k
  unfold lowerPos lowerBound
  rw [← List.head?_filter, List.head?_eq_getElem?]
  generalize (m.entries.filter fun e => decide (e.1 < k)) = below at hsplit ⊢
  generalize (m.entries.filter fun e => !decide (e.1 < k)) = above at hsplit ⊢
  rw [hsplit, List.getElem?_append_right (Nat.le_refl _), Nat.sub_self]

/-- The lower bound is `begin()` exactly when it has no predecessor. -/
theorem lowerPos_eq_zero {m : SortedMap K V} {k : K} :
    m.lowerPos k = 0 ↔ m.pred k = none := by
  unfold lowerPos pred
  rw [List.length_eq_zero_iff, List.getLast?_eq_none_iff]

/-- The entry one decrement away from the lower bound. -/
theorem getElem?_of_decr {m : SortedMap K V} {k : K} {i : Nat}
    (h : decr (m.lowerPos k) = some i) : m.entries[i]? = m.pred k := by
  cases hpos : m.lowerPos k with
  | zero => rw [hpos] at h; cases h
  | succ j =>
      rw [hpos] at h
      injection h with h
      subst h
      have hsplit := m.entries_eq_append k
      unfold pred
      unfold lowerPos at hpos
      rw [List.getLast?_eq_getElem?, hpos, Nat.add_sub_cancel]
      generalize (m.entries.filter fun e => decide (e.1 < k)) = below at hsplit hpos ⊢
      rw [hsplit, List.getElem?_append_left (by omega)]

end Lookup

end SortedMap

end Carmot.Lib
