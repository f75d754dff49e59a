/-
A doubly linked list whose iterators are kept by others.

A node has a name of its own, never used again, so an iterator is the
name of a node and stays valid until that node is erased, whatever is
pushed or popped elsewhere. Using an iterator whose node is gone has no
meaning: `erase` is `none` there, and so is popping an empty list.

`Designated` ties a table of iterators to the list: each stored iterator
is the node of its own element, and each element has one. Its lemmas say
what the table has to do when the list changes.
-/
import Mathlib.Data.List.Nodup
import Mathlib.Logic.Function.Basic

namespace Carmot.Lib

/-- The nodes in order, and the next free name. -/
structure LinkedList (α : Type*) where
  nodes : List (Nat × α)
  next : Nat
  nodup : (nodes.map Prod.fst).Nodup
  lt_next : ∀ n ∈ nodes, n.1 < next

namespace LinkedList

variable {α : Type*}

def empty : LinkedList α := ⟨[], 0, List.nodup_nil, fun _ h => nomatch h⟩

/-- The elements in order. -/
def values (l : LinkedList α) : List α := l.nodes.map Prod.snd

/-- `begin()`; `none` where it is `end()`. -/
def begin? (l : LinkedList α) : Option Nat := l.nodes.head?.map Prod.fst

/-- `back()`. -/
def back? (l : LinkedList α) : Option α := l.values.getLast?

/-- `push_front`. -/
def pushFront (l : LinkedList α) (v : α) : LinkedList α where
  nodes := (l.next, v) :: l.nodes
  next := l.next + 1
  nodup := by
    rw [List.map_cons, List.nodup_cons]
    refine ⟨fun h => ?_, l.nodup⟩
    obtain ⟨n, hn, heq⟩ := List.mem_map.mp h
    exact absurd (l.lt_next n hn) (by rw [heq]; exact Nat.lt_irrefl _)
  lt_next n hn := by
    rcases List.mem_cons.mp hn with h | h
    · rw [h]
      exact Nat.lt_succ_self _
    · exact Nat.lt_succ_of_lt (l.lt_next n h)

/-- The list less some of its nodes. -/
def restrict (l : LinkedList α) (nodes : List (Nat × α)) (h : nodes.Sublist l.nodes) :
    LinkedList α where
  nodes := nodes
  next := l.next
  nodup := (h.map Prod.fst).nodup l.nodup
  lt_next n hn := l.lt_next n (h.subset hn)

/-- `pop_back`. -/
def popBack (l : LinkedList α) : Option (LinkedList α) :=
  if l.nodes = [] then none else some (l.restrict l.nodes.dropLast (List.dropLast_sublist _))

/-- `erase`: only a valid iterator can be erased. -/
def erase (l : LinkedList α) (it : Nat) : Option (LinkedList α) :=
  if it ∈ l.nodes.map Prod.fst then
    some (l.restrict (l.nodes.filter fun n => n.1 ≠ it) List.filter_sublist)
  else none

theorem mem_values {l : LinkedList α} {v : α} : v ∈ l.values ↔ ∃ it, (it, v) ∈ l.nodes := by
  simp [values]

/-- A list with a last element can be popped. -/
theorem popBack_of_back {l : LinkedList α} {v : α} (h : l.back? = some v) :
    ∃ l', l.popBack = some l' ∧ l'.nodes = l.nodes.dropLast := by
  have hne : l.nodes ≠ [] := by
    intro hnil
    simp [back?, values, hnil] at h
  exact ⟨_, if_neg hne, rfl⟩

theorem erase_of_mem {l : LinkedList α} {it : Nat} {v : α} (h : (it, v) ∈ l.nodes) :
    ∃ l', l.erase it = some l' ∧ l'.nodes = l.nodes.filter fun n => n.1 ≠ it :=
  ⟨_, if_pos (List.mem_map.mpr ⟨(it, v), h, rfl⟩), rfl⟩

/-- Where the first node is, and what remains without it. -/
theorem nodes_of_begin {l : LinkedList α} {it : Nat} (h : l.begin? = some it) :
    ∃ v, l.nodes = (it, v) :: l.nodes.filter fun n => n.1 ≠ it := by
  have hnd := l.nodup
  unfold begin? at h
  cases hn : l.nodes with
  | nil => simp [hn] at h
  | cons n rest =>
      obtain ⟨jt, v⟩ := n
      rw [hn] at h hnd
      injection h with h
      simp only at h
      subst h
      rw [List.map_cons, List.nodup_cons] at hnd
      refine ⟨v, ?_⟩
      rw [List.filter_cons_of_neg (by simp), List.filter_eq_self.mpr]
      intro m hm
      exact decide_eq_true fun heq => hnd.1 (List.mem_map.mpr ⟨m, hm, heq⟩)

/-- One node has one element. -/
theorem value_unique {l : LinkedList α} {it : Nat} {v w : α} (hv : (it, v) ∈ l.nodes)
    (hw : (it, w) ∈ l.nodes) : v = w := by
  have heq := List.inj_on_of_nodup_map l.nodup hv hw rfl
  exact congrArg Prod.snd heq

/-- In a list without repetitions one element has one node. -/
theorem node_unique {l : LinkedList α} (hnd : l.values.Nodup) {it jt : Nat} {v : α}
    (hi : (it, v) ∈ l.nodes) (hj : (jt, v) ∈ l.nodes) : it = jt := by
  have heq := List.inj_on_of_nodup_map hnd hi hj rfl
  exact congrArg Prod.fst heq

/-- The first node is that of the first element. -/
theorem begin_iff_head {l : LinkedList α} (hnd : l.values.Nodup) {it : Nat} {v : α}
    (hit : (it, v) ∈ l.nodes) : l.begin? = some it ↔ l.values.head? = some v := by
  unfold begin? values
  cases hn : l.nodes with
  | nil => simp
  | cons n rest =>
      obtain ⟨jt, w⟩ := n
      have hfirst : (jt, w) ∈ l.nodes := by rw [hn]; exact List.mem_cons_self ..
      simp only [List.head?_cons, Option.map_some, List.map_cons, Option.some.injEq]
      constructor
      · intro h
        rw [h] at hfirst
        exact value_unique hfirst hit
      · intro h
        rw [h] at hfirst
        exact node_unique hnd hfirst hit

-- ========================================================= kept iterators

/-- The table holds the iterator of every element, and no other. -/
def Designated (l : LinkedList α) (ma : α → Option Nat) : Prop :=
  ∀ v it, ma v = some it ↔ (it, v) ∈ l.nodes

theorem designated_empty : (empty : LinkedList α).Designated fun _ => none := by
  intro v it
  simp [empty]

/-- The keys of the table are the elements of the list. -/
theorem Designated.isSome_iff {l : LinkedList α} {ma : α → Option Nat} (h : l.Designated ma)
    {v : α} : (ma v).isSome = true ↔ v ∈ l.values := by
  rw [mem_values, Option.isSome_iff_exists]
  apply exists_congr
  exact h v

variable [DecidableEq α]

/-- A new element: its iterator is entered. -/
theorem Designated.pushFront {l : LinkedList α} {ma : α → Option Nat} (h : l.Designated ma)
    {v : α} (hv : v ∉ l.values) :
    (l.pushFront v).Designated (Function.update ma v (l.pushFront v).begin?) := by
  intro w it
  have hno : ∀ jt, (jt, v) ∉ l.nodes := fun jt hj => hv (mem_values.mpr ⟨jt, hj⟩)
  simp only [LinkedList.pushFront, List.mem_cons, Prod.mk.injEq]
  by_cases hw : w = v
  · subst hw
    simp [begin?, hno, eq_comm]
  · simp [hw, h w it]

/-- The last element leaves, and its iterator with it. -/
theorem Designated.popBack {l l' : LinkedList α} {ma : α → Option Nat} (h : l.Designated ma)
    (hnd : l.values.Nodup) {v : α} (hback : l.back? = some v)
    (hpop : l'.nodes = l.nodes.dropLast) : l'.Designated (Function.update ma v none) := by
  obtain ⟨init, last, hsplit⟩ : ∃ init last, l.nodes = init ++ [last] := by
    have hne : l.nodes ≠ [] := by
      intro hnil
      simp [back?, values, hnil] at hback
    exact ⟨_, _, (List.dropLast_append_getLast hne).symm⟩
  have hlast : last.2 = v := by
    simp [back?, values, hsplit] at hback
    exact hback
  rw [values, hsplit, List.map_append, List.nodup_append] at hnd
  have hgone : ∀ it, (it, v) ∉ init := by
    intro it hit
    exact hnd.2.2 v (List.mem_map.mpr ⟨_, hit, rfl⟩) last.2 (by simp) hlast.symm
  intro w it
  rw [hpop, hsplit, List.dropLast_concat]
  by_cases hw : w = v
  · subst hw
    simp [hgone]
  · rw [Function.update_of_ne hw, h w it, hsplit, List.mem_append, List.mem_singleton]
    constructor
    · intro hm
      rcases hm with hm | hm
      · exact hm
      · rw [← hm] at hlast
        exact absurd hlast hw
    · exact Or.inl

/-- The elements after an erasure. -/
theorem values_of_erase {l l' : LinkedList α} (hnd : l.values.Nodup) {v : α} {it : Nat}
    (hit : (it, v) ∈ l.nodes) (herase : l'.nodes = l.nodes.filter fun n => n.1 ≠ it) :
    l'.values = l.values.erase v := by
  have hsame : ∀ n ∈ l.nodes, decide (n.1 ≠ it) = (n.2 != v) := by
    intro n hn
    rw [Bool.eq_iff_iff, decide_eq_true_eq, bne_iff_ne]
    constructor
    · intro hne heq
      exact hne (node_unique hnd (by rw [← heq]; exact hn) hit)
    · intro hne heq
      exact hne (value_unique (by rw [← heq]; exact hn) hit)
  rw [hnd.erase_eq_filter, values, values, herase, List.filter_congr hsame, List.filter_map]
  rfl

/-- An element is erased where its iterator points. -/
theorem Designated.erase {l l' : LinkedList α} {ma : α → Option Nat} (h : l.Designated ma)
    (hnd : l.values.Nodup) {v : α} {it : Nat} (hit : (it, v) ∈ l.nodes)
    (herase : l'.nodes = l.nodes.filter fun n => n.1 ≠ it) :
    l'.Designated (Function.update ma v none) := by
  intro w jt
  rw [herase, List.mem_filter]
  by_cases hw : w = v
  · subst hw
    simp only [Function.update_self, reduceCtorEq, false_iff, not_and]
    intro hm hne
    exact of_decide_eq_true hne (node_unique hnd hm hit)
  · rw [Function.update_of_ne hw, h w jt]
    constructor
    · intro hm
      refine ⟨hm, decide_eq_true fun heq => ?_⟩
      rw [show jt = it from heq] at hm
      exact hw (value_unique hm hit)
    · exact And.left

/-- It can enter again at the front. -/
theorem Designated.moveToFront {l l' : LinkedList α} {ma : α → Option Nat} (h : l.Designated ma)
    (hnd : l.values.Nodup) {v : α} {it : Nat} (hit : (it, v) ∈ l.nodes)
    (herase : l'.nodes = l.nodes.filter fun n => n.1 ≠ it) :
    (l'.pushFront v).Designated (Function.update ma v (l'.pushFront v).begin?) := by
  have herased := h.erase hnd hit herase
  have hgone : v ∉ l'.values := by
    rw [← herased.isSome_iff]
    simp
  have hpushed := herased.pushFront hgone
  rw [Function.update_idem] at hpushed
  exact hpushed

end LinkedList

end Carmot.Lib
