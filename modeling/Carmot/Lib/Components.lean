/-
Vertices grouped by strong component.

`StrongComponents` is the contract of an algorithm that numbers the
vertices `0 .. n - 1` of a directed graph: two have one number exactly
when each reaches the other. `groups` lists the vertices number by
number, and `largeGroups` keeps the groups of more than one vertex. A
vertex is in one of those exactly when another one has its number
(`mem_largeGroups`), and never in two (`index_unique`).

A graph is often drawn on names for the things it is about: each thing
has a vertex, and edges join such vertices only. Then paths between
different vertices are chains of links between the things
(`Drawn.path`, `Drawn.mutual`).
-/
import Mathlib.Data.List.Dedup
import Mathlib.Data.List.Nodup
import Mathlib.Logic.Relation

namespace Carmot.Lib

open Relation (ReflTransGen TransGen)

-- ==================================================================== groups

/-- The numbering tells the strong components apart. -/
def StrongComponents (edge : Nat → Nat → Prop) (n : Nat) (component : Nat → Nat) : Prop :=
  ∀ u < n, ∀ v < n, component u = component v ↔ ReflTransGen edge u v ∧ ReflTransGen edge v u

/-- The vertices with one number, in order. -/
def members (component : Nat → Nat) (n c : Nat) : List Nat :=
  (List.range n).filter fun v => component v = c

/-- The vertices number by number. -/
def groups (component : Nat → Nat) (n : Nat) : List (List Nat) :=
  ((List.range n).map component).dedup.map (members component n)

/-- The groups of more than one vertex. -/
def largeGroups (component : Nat → Nat) (n : Nat) : List (List Nat) :=
  (groups component n).filter fun g => 1 < g.length

section Groups

variable {component : Nat → Nat} {n : Nat}

theorem mem_members {c v : Nat} : v ∈ members component n c ↔ v < n ∧ component v = c := by
  simp [members]

theorem nodup_members (component : Nat → Nat) (n c : Nat) : (members component n c).Nodup :=
  List.nodup_range.filter _

/-- A list without repetitions is long when it has two elements. -/
theorem one_lt_length_iff {l : List Nat} (hl : l.Nodup) {u : Nat} (hu : u ∈ l) :
    1 < l.length ↔ ∃ v ∈ l, v ≠ u := by
  constructor
  · intro hlen
    by_contra hall
    have hconst : ∀ v ∈ l, v = u := by
      intro v hv
      by_contra hne
      exact hall ⟨v, hv, hne⟩
    rw [List.eq_replicate_of_mem hconst, List.nodup_replicate] at hl
    omega
  · rintro ⟨v, hv, hne⟩
    cases l with
    | nil => cases hu
    | cons a l =>
        cases l with
        | nil => exact absurd ((List.mem_singleton.mp hv).trans (List.mem_singleton.mp hu).symm) hne
        | cons b l => simp

/-- A vertex is in a large group when it shares its number. -/
theorem mem_largeGroups {u : Nat} :
    (∃ g ∈ largeGroups component n, u ∈ g) ↔
      u < n ∧ ∃ v < n, v ≠ u ∧ component v = component u := by
  constructor
  · rintro ⟨g, hg, hu⟩
    rw [largeGroups, List.mem_filter] at hg
    obtain ⟨c, -, rfl⟩ := List.mem_map.mp hg.1
    obtain ⟨v, hv, hne⟩ := (one_lt_length_iff (nodup_members ..) hu).mp (of_decide_eq_true hg.2)
    rw [mem_members] at hu hv
    exact ⟨hu.1, v, hv.1, hne, hv.2.trans hu.2.symm⟩
  · rintro ⟨hu, v, hv, hne, hsame⟩
    have hmem : u ∈ members component n (component u) := mem_members.mpr ⟨hu, rfl⟩
    refine ⟨members component n (component u), ?_, hmem⟩
    rw [largeGroups, List.mem_filter]
    constructor
    · apply List.mem_map_of_mem
      rw [List.mem_dedup]
      exact List.mem_map_of_mem (List.mem_range.mpr hu)
    · apply decide_eq_true
      exact (one_lt_length_iff (nodup_members ..) hmem).mpr ⟨v, mem_members.mpr ⟨hv, hsame⟩, hne⟩

/-- Vertices with one number are in one group. -/
theorem index_unique {i j : Nat} {g g' : List Nat} {u v : Nat}
    (hi : (largeGroups component n)[i]? = some g) (hj : (largeGroups component n)[j]? = some g')
    (hu : u ∈ g) (hv : v ∈ g') (hsame : component u = component v) : i = j := by
  have heq : largeGroups component n
      = ((((List.range n).map component).dedup).filter
          fun c => 1 < (members component n c).length).map (members component n) := by
    unfold largeGroups groups
    rw [List.filter_map]
    rfl
  rw [heq, List.getElem?_map, Option.map_eq_some_iff] at hi hj
  obtain ⟨c, hc, rfl⟩ := hi
  obtain ⟨d, hd, rfl⟩ := hj
  have hcd : c = d := by
    rw [← (mem_members.mp hu).2, ← (mem_members.mp hv).2, hsame]
  subst hcd
  have hnd := (List.nodup_dedup ((List.range n).map component)).filter
    fun c => 1 < (members component n c).length
  have hlt := (List.getElem?_eq_some_iff.mp hc).1
  apply (List.getElem?_inj hlt hnd).mp
  rw [hc, hd]

end Groups

-- ============================================================ drawn on names

section Drawn

variable {α : Type*} {link : α → α → Prop} {vertex : α → Nat} {edge : Nat → Nat → Prop}

/-- The edges are the links, vertex by vertex. -/
def Drawn (link : α → α → Prop) (vertex : α → Nat) (edge : Nat → Nat → Prop) : Prop :=
  ∀ u v, edge u v ↔ ∃ a b, link a b ∧ u = vertex a ∧ v = vertex b

/-- A chain of links is a path. -/
theorem Drawn.path (h : Drawn link vertex edge) {a b : α} (hab : TransGen link a b) :
    ReflTransGen edge (vertex a) (vertex b) := by
  induction hab with
  | single hl => exact .single ((h _ _).mpr ⟨_, _, hl, rfl, rfl⟩)
  | tail _ hl ih => exact ih.tail ((h _ _).mpr ⟨_, _, hl, rfl, rfl⟩)

variable (h : Drawn link vertex edge)
  (hinj : ∀ a b c d, link a b → link c d → vertex b = vertex c → b = c)

include h hinj

/-- A path between different vertices is a chain of links, where
linked things of one vertex are one. -/
theorem Drawn.chain {u v : Nat} (huv : ReflTransGen edge u v) (hne : u ≠ v) :
    ∃ a b, u = vertex a ∧ v = vertex b ∧ TransGen link a b ∧ ∃ c, link c b := by
  have hpath : u = v ∨ ∃ a b, u = vertex a ∧ v = vertex b ∧ TransGen link a b
      ∧ ∃ c, link c b := by
    induction huv with
    | refl => exact Or.inl rfl
    | tail _ hstep ih =>
        obtain ⟨a', b', hl, ha', hb'⟩ := (h _ _).mp hstep
        right
        by_cases hstart : u = vertex a'
        · exact ⟨a', b', hstart, hb', .single hl, a', hl⟩
        · rcases ih (by rw [ha']; exact hstart) with heq | ⟨a, b, ha, hb, hab, c, hcb⟩
          · exact absurd (heq.trans ha') hstart
          · have hmeet : b = a' := hinj c b a' b' hcb hl (hb.symm.trans ha')
            subst hmeet
            exact ⟨a, b', ha, hb', hab.tail hl, b, hl⟩
  rcases hpath with heq | hchain
  · exact absurd heq hne
  · exact hchain

/-- Two vertices that reach each other stand for two things that do. -/
theorem Drawn.mutual {u v : Nat} (hne : u ≠ v) (huv : ReflTransGen edge u v)
    (hvu : ReflTransGen edge v u) :
    ∃ a b, u = vertex a ∧ v = vertex b ∧ TransGen link a b ∧ TransGen link b a := by
  obtain ⟨a, b, hua, hvb, hab, c, hcb⟩ := h.chain hinj huv hne
  obtain ⟨b', a', hvb', hua', hba, d, hda⟩ := h.chain hinj hvu hne.symm
  obtain ⟨x, hax, -⟩ := Relation.TransGen.head'_iff.mp hab
  obtain ⟨y, hby, -⟩ := Relation.TransGen.head'_iff.mp hba
  have ha : a' = a := hinj d a' a x hda hax (hua'.symm.trans hua)
  have hb : b = b' := hinj c b b' y hcb hby (hvb.symm.trans hvb')
  subst ha hb
  exact ⟨a', b, hua, hvb, hab, hba⟩

end Drawn

end Carmot.Lib
