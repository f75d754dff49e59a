/-
Keys in the order of their last use.

A history is a list of keys, the newest first. `recent` keeps of each
key its last use, so it lists every key once, the most recently used
first. A cache of `n` keys with least-recently-used eviction holds the
first `n` of them, and the three lemmas at the end are its three moves:
a hit takes the key to the front (`recent_take_hit`), a miss puts it
there (`recent_take_miss`), after the last key has left a full cache
(`recent_take_full`).
-/
import Mathlib.Data.Finset.Card
import Mathlib.Data.List.TakeDrop

namespace Carmot.Lib

variable {K : Type*} [DecidableEq K]

/-- Every key of the history once, in the order of its last use. -/
def recent : List K → List K
  | [] => []
  | k :: h => k :: (recent h).filter fun j => j ≠ k

theorem mem_recent {h : List K} {k : K} : k ∈ recent h ↔ k ∈ h := by
  induction h with
  | nil => exact Iff.rfl
  | cons j h ih =>
      simp only [recent, List.mem_cons, List.mem_filter, decide_eq_true_eq, ih]
      by_cases hk : k = j
      · simp [hk]
      · simp [hk]

theorem nodup_recent (h : List K) : (recent h).Nodup := by
  induction h with
  | nil => exact List.nodup_nil
  | cons j h ih =>
      rw [recent, List.nodup_cons]
      refine ⟨?_, ih.filter _⟩
      simp

/-- There are as many of them as the history has keys. -/
theorem length_recent (h : List K) : (recent h).length = h.toFinset.card := by
  have hset : (recent h).toFinset = h.toFinset := by
    ext k
    rw [List.mem_toFinset, List.mem_toFinset, mem_recent]
  rw [← hset, List.toFinset_card_of_nodup (nodup_recent h)]

-- ===================================================================== moves

section Moves

variable {n : Nat} {h : List K} {k : K}

/-- A use takes one place; the rest is what the others had. -/
theorem recent_cons_take (hn : 1 ≤ n) :
    (recent (k :: h)).take n = k :: ((recent h).filter fun j => j ≠ k).take (n - 1) := by
  obtain ⟨m, rfl⟩ : ∃ m, n = m + 1 := ⟨n - 1, by omega⟩
  rfl

theorem filter_ne_of_not_mem {l : List K} (hk : k ∉ l) : l.filter (fun j => j ≠ k) = l := by
  rw [List.filter_eq_self]
  intro j hj
  exact decide_eq_true fun heq => hk (heq ▸ hj)

/-- Taking the key out of the first `n` leaves the first `n - 1` of the
others. -/
theorem take_filter_of_mem {l : List K} (hl : l.Nodup) (hk : k ∈ l.take n) :
    (l.filter fun j => j ≠ k).take (n - 1) = (l.take n).filter fun j => j ≠ k := by
  induction l generalizing n with
  | nil => simp at hk
  | cons j l ih =>
      rw [List.nodup_cons] at hl
      cases n with
      | zero => simp at hk
      | succ n =>
          rw [List.take_succ_cons, Nat.add_sub_cancel]
          by_cases hj : j = k
          · -- the key stands here, and nowhere behind
            subst hj
            have hrest : j ∉ l.take n := fun h => hl.1 (List.mem_of_mem_take h)
            rw [List.filter_cons_of_neg (by simp), List.filter_cons_of_neg (by simp),
              filter_ne_of_not_mem hl.1, filter_ne_of_not_mem hrest]
          · rw [List.take_succ_cons, List.mem_cons] at hk
            have hmem : k ∈ l.take n := by
              rcases hk with hk | hk
              · exact absurd hk.symm hj
              · exact hk
            have hpos : n ≠ 0 := by
              intro hz
              rw [hz] at hmem
              cases hmem
            obtain ⟨m, rfl⟩ := Nat.exists_eq_succ_of_ne_zero hpos
            rw [List.filter_cons_of_pos (by simp [hj]), List.filter_cons_of_pos (by simp [hj]),
              Nat.succ_eq_add_one, List.take_succ_cons]
            congr 1
            exact ih hl.2 hmem

/-- A hit: the key moves to the front. -/
theorem recent_take_hit (hn : 1 ≤ n) (hk : k ∈ (recent h).take n) :
    (recent (k :: h)).take n = k :: ((recent h).take n).filter fun j => j ≠ k := by
  rw [recent_cons_take hn, take_filter_of_mem (nodup_recent h) hk]

/-- A miss while there is room: the key joins the others. -/
theorem recent_take_miss (hn : 1 ≤ n) (hk : k ∉ (recent h).take n)
    (hroom : ((recent h).take n).length ≠ n) :
    (recent (k :: h)).take n = k :: (recent h).take n := by
  have hlen : (recent h).length < n := by
    rw [List.length_take] at hroom
    omega
  rw [List.take_of_length_le (Nat.le_of_lt hlen)] at hk ⊢
  rw [recent_cons_take hn, filter_ne_of_not_mem hk,
    List.take_of_length_le (Nat.le_sub_one_of_lt hlen)]

/-- A miss in a full cache: the key that was used least recently makes
room. -/
theorem recent_take_full (hn : 1 ≤ n) (hk : k ∉ (recent h).take n)
    (hfull : ((recent h).take n).length = n) :
    (recent (k :: h)).take n = k :: ((recent h).take n).dropLast := by
  rw [recent_cons_take hn]
  congr 1
  have hsplit : (recent h).filter (fun j => j ≠ k)
      = (recent h).take n ++ ((recent h).drop n).filter fun j => j ≠ k := by
    nth_rewrite 1 [← List.take_append_drop n (recent h)]
    rw [List.filter_append, filter_ne_of_not_mem hk]
  rw [hsplit, List.take_append_of_le_length (by omega), List.dropLast_eq_take, hfull]

end Moves

end Carmot.Lib
