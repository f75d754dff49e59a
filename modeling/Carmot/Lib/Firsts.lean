/-
The first element of every key.

A table that is searched before it is extended keeps, of all elements
it was ever offered, the first one of each key, in order of arrival
(`firsts`). Searching it for a key finds what a search of everything
offered so far would find (`find?_firsts`), its keys never repeat
(`nodup_firsts`), and growing it moves nothing (`firsts_append`). So a
key has one position for good (`rankOf`), its own (`rankOf_eq_iff`).
-/
import Mathlib.Data.List.Induction
import Mathlib.Data.List.Nodup

namespace Carmot.Lib

variable {α K : Type*} [DecidableEq K] (key : α → K)

/-- Offer one element: it is added when its key is new. -/
def addFirst (t : List α) (a : α) : List α :=
  match t.find? fun b => key b = key a with
  | some _ => t
  | none => t ++ [a]

/-- The first element of every key. -/
def firsts (xs : List α) : List α := xs.foldl (addFirst key) []

theorem firsts_concat (xs : List α) (a : α) :
    firsts key (xs ++ [a]) = addFirst key (firsts key xs) a := by
  unfold firsts
  rw [List.foldl_append]
  rfl

theorem addFirst_of_some {t : List α} {a b : α} (h : t.find? (fun b => key b = key a) = some b) :
    addFirst key t a = t := by
  unfold addFirst
  rw [h]

theorem addFirst_of_none {t : List α} {a : α} (h : t.find? (fun b => key b = key a) = none) :
    addFirst key t a = t ++ [a] := by
  unfold addFirst
  rw [h]

/-- The table finds what was offered first. -/
theorem find?_firsts (xs : List α) (k : K) :
    (firsts key xs).find? (fun b => key b = k) = xs.find? fun b => key b = k := by
  induction xs using List.reverseRecOn with
  | nil => rfl
  | append_singleton xs a ih =>
      rw [firsts_concat, List.find?_append, ← ih]
      cases hfound : (firsts key xs).find? fun b => key b = key a with
      | none =>
          rw [addFirst_of_none key hfound, List.find?_append]
      | some b =>
          rw [addFirst_of_some key hfound]
          by_cases hk : key a = k
          · subst hk
            rw [hfound]
            rfl
          · simp [hk]

theorem mem_of_mem_firsts {xs : List α} {a : α} (h : a ∈ firsts key xs) : a ∈ xs := by
  induction xs using List.reverseRecOn with
  | nil => exact h
  | append_singleton xs b ih =>
      rw [firsts_concat] at h
      cases hfound : (firsts key xs).find? fun c => key c = key b with
      | none =>
          rw [addFirst_of_none key hfound] at h
          rcases List.mem_append.mp h with h | h
          · exact List.mem_append_left _ (ih h)
          · exact List.mem_append_right _ h
      | some c =>
          rw [addFirst_of_some key hfound] at h
          exact List.mem_append_left _ (ih h)

/-- Every key offered has its representative. -/
theorem exists_mem_firsts {xs : List α} {a : α} (h : a ∈ xs) :
    ∃ b ∈ firsts key xs, key b = key a := by
  have hsome : ((firsts key xs).find? fun b => key b = key a).isSome = true := by
    rw [find?_firsts, List.find?_isSome]
    exact ⟨a, h, by simp⟩
  obtain ⟨b, hb, hkey⟩ := List.find?_isSome.mp hsome
  exact ⟨b, hb, of_decide_eq_true hkey⟩

theorem nodup_firsts (xs : List α) : ((firsts key xs).map key).Nodup := by
  induction xs using List.reverseRecOn with
  | nil => exact List.nodup_nil
  | append_singleton xs a ih =>
      rw [firsts_concat]
      cases hfound : (firsts key xs).find? fun b => key b = key a with
      | some b => rw [addFirst_of_some key hfound]; exact ih
      | none =>
          rw [addFirst_of_none key hfound, List.map_append, List.nodup_append]
          refine ⟨ih, List.nodup_singleton _, ?_⟩
          intro k hk k' hk' heq
          obtain ⟨b, hb, rfl⟩ := List.mem_map.mp hk
          have hk'' : k' = key a := List.mem_singleton.mp hk'
          have hno := List.find?_eq_none.mp hfound b hb
          simp [heq, hk''] at hno

/-- Growing the table moves nothing. -/
theorem firsts_append (xs ys : List α) :
    ∃ zs, firsts key (xs ++ ys) = firsts key xs ++ zs := by
  induction ys using List.reverseRecOn with
  | nil => exact ⟨[], by simp⟩
  | append_singleton ys a ih =>
      obtain ⟨zs, hzs⟩ := ih
      rw [← List.append_assoc, firsts_concat]
      unfold addFirst
      split
      · exact ⟨zs, hzs⟩
      · exact ⟨zs ++ [a], by rw [hzs, List.append_assoc]⟩

-- ============================================================== positions

/-- The position of an element's key in the table. -/
def rankOf (xs : List α) (a : α) : Nat := (firsts key xs).findIdx fun b => key b = key a

theorem rankOf_lt {xs : List α} {a : α} (h : a ∈ xs) :
    rankOf key xs a < (firsts key xs).length := by
  obtain ⟨b, hb, hkey⟩ := exists_mem_firsts key h
  exact List.findIdx_lt_length.mpr ⟨b, hb, decide_eq_true hkey⟩

theorem key_getElem_rankOf {xs : List α} {a : α} (h : rankOf key xs a < (firsts key xs).length) :
    key ((firsts key xs)[rankOf key xs a]) = key a :=
  of_decide_eq_true (List.findIdx_getElem (w := h))

/-- A key keeps its position. -/
theorem rankOf_append {xs : List α} {a : α} (h : a ∈ xs) (ys : List α) :
    rankOf key (xs ++ ys) a = rankOf key xs a := by
  obtain ⟨zs, hzs⟩ := firsts_append key xs ys
  have hlt := rankOf_lt key h
  unfold rankOf at hlt ⊢
  rw [hzs, List.findIdx_append, if_pos hlt]

/-- A new key goes to the end. -/
theorem rankOf_of_new {xs : List α} {a : α}
    (h : (firsts key xs).find? (fun b => key b = key a) = none) :
    rankOf key (xs ++ [a]) a = (firsts key xs).length := by
  have hlen : (firsts key xs).findIdx (fun b => key b = key a) = (firsts key xs).length := by
    apply List.findIdx_eq_length_of_false
    intro b hb
    exact Bool.eq_false_iff.mpr (List.find?_eq_none.mp h b hb)
  unfold rankOf
  rw [firsts_concat, addFirst_of_none key h, List.findIdx_append, if_neg (by omega)]
  simp

/-- The table's own elements are where they stand. -/
theorem rankOf_getElem {xs : List α} {i : Nat} (h : i < (firsts key xs).length) :
    rankOf key xs (firsts key xs)[i] = i := by
  unfold rankOf
  rw [List.findIdx_eq h]
  refine ⟨decide_eq_true rfl, ?_⟩
  intro j hj
  apply decide_eq_false
  intro heq
  have hnodup := nodup_firsts key xs
  have hlt : j < (firsts key xs).length := Nat.lt_trans hj h
  have hi' : i < ((firsts key xs).map key).length := by rw [List.length_map]; exact h
  have hj' : j < ((firsts key xs).map key).length := by rw [List.length_map]; exact hlt
  have hij : j = i := by
    rw [← @List.Nodup.getElem_inj_iff _ _ hnodup j hj' i hi']
    rw [List.getElem_map, List.getElem_map]
    exact heq
  omega

/-- Positions tell keys apart. -/
theorem rankOf_eq_iff {xs : List α} {a b : α} (ha : a ∈ xs) (hb : b ∈ xs) :
    rankOf key xs a = rankOf key xs b ↔ key a = key b := by
  constructor
  · intro h
    rw [← key_getElem_rankOf key (rankOf_lt key ha), ← key_getElem_rankOf key (rankOf_lt key hb)]
    congr 2
  · intro h
    unfold rankOf
    rw [h]

end Carmot.Lib
