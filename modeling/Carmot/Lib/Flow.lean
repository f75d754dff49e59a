/-
Paths through a flow graph, dominance, and forward must-analyses.

A must-analysis computes for every node the facts that hold whenever
the node is reached: a fact at the entry of a node was generated on
every path that leads there (`exists_gen`).

# Cuts

An analysis without kill sets never forgets a fact, so a fact may stem
from long ago. Where it must be recent, dominance helps: let `c`
strictly dominate every node that generates `x`. If `x` holds at the
end of a path, then it was generated after EVERY visit of `c`, also
after the last one (`exists_gen_after`). For else the part of the path
from the first to the last visit of `c` could be cut out, and the
shorter path would reach the end with `x` never generated: before the
first visit of `c` no generating node can come.

`exists_first_gen` adds that the generating node can be chosen among
those that `x` does not hold at yet.
-/
import Mathlib.Data.Set.Basic
import Mathlib.Data.Nat.Find

namespace Carmot.Lib

/-- A flow graph. -/
structure FlowGraph (α : Type*) where
  entry : α
  succ : α → α → Prop

namespace FlowGraph

variable {α β : Type*} {G : FlowGraph α} {p : Nat → α} {n : Nat}

-- =============================================================== paths

/-- `p 0`, .. `p n` is a path from the entry. -/
structure IsPath (G : FlowGraph α) (p : Nat → α) (n : Nat) : Prop where
  start : p 0 = G.entry
  step : ∀ k < n, G.succ (p k) (p (k + 1))

theorem IsPath.take (h : G.IsPath p n) {k : Nat} (hk : k ≤ n) : G.IsPath p k where
  start := h.start
  step j hj := h.step j (Nat.lt_of_lt_of_le hj hk)

/-- The sequence without what lies between positions `f` and `m`. -/
def spliced (p : Nat → α) (f m : Nat) : Nat → α :=
  fun j => if j ≤ f then p j else p (j - f + m)

theorem spliced_of_le {f m j : Nat} (h : j ≤ f) : spliced p f m j = p j := if_pos h

theorem spliced_of_lt {f m j : Nat} (h : f < j) : spliced p f m j = p (j - f + m) :=
  if_neg (by omega)

/-- A path stays a path when a part between two visits of one node is
cut out. -/
theorem IsPath.splice (h : G.IsPath p n) {f m : Nat} (hfm : f ≤ m) (hm : m ≤ n)
    (heq : p f = p m) : G.IsPath (spliced p f m) (f + (n - m)) where
  start := by
    rw [spliced_of_le (Nat.zero_le f)]
    exact h.start
  step j hj := by
    by_cases hlt : j < f
    · rw [spliced_of_le (by omega), spliced_of_le (by omega)]
      exact h.step j (by omega)
    · have hnext : j + 1 - f + m = (j - f + m) + 1 := by omega
      have hhere : spliced p f m j = p (j - f + m) := by
        by_cases hjf : j = f
        · subst hjf
          rw [spliced_of_le (Nat.le_refl j), heq]
          congr 1
          omega
        · exact spliced_of_lt (by omega)
      rw [hhere, spliced_of_lt (show f < j + 1 by omega), hnext]
      exact h.step _ (by omega)

/-- Of the positions before `n` with a property, the last. -/
theorem exists_last {P : Nat → Prop} (h : ∃ m < n, P m) :
    ∃ m < n, P m ∧ ∀ j < n, P j → j ≤ m := by
  classical
  obtain ⟨m, hm, hP⟩ := h
  have hspec := Nat.findGreatest_spec (P := fun m => m < n ∧ P m) (Nat.le_of_lt hm) ⟨hm, hP⟩
  refine ⟨_, hspec.1, hspec.2, ?_⟩
  intro j hj hPj
  exact Nat.le_findGreatest (Nat.le_of_lt hj) ⟨hj, hPj⟩

-- =========================================================== dominance

/-- Every path to `b` visits `a`. -/
def Dominates (G : FlowGraph α) (a b : α) : Prop :=
  ∀ p n, G.IsPath p n → p n = b → ∃ k ≤ n, p k = a

/-- Every path to `b` visits `a` before. -/
def StrictlyDominates (G : FlowGraph α) (a b : α) : Prop :=
  ∀ p n, G.IsPath p n → p n = b → ∃ k < n, p k = a

theorem Dominates.strictly {a b : α} (h : G.Dominates a b) (hne : a ≠ b) :
    G.StrictlyDominates a b := by
  intro p n hp hn
  obtain ⟨k, hk, hka⟩ := h p n hp hn
  have hkn : k ≠ n := by
    intro heq
    apply hne
    rw [← hka, heq, hn]
  exact ⟨k, by omega, hka⟩

-- ====================================================== must-analyses

/-- A solution of the equations of a forward must-analysis without kill
sets: nothing holds at the entry, a fact holds at a node only if it
holds after every predecessor, and after a node hold its own facts and
those that held before. -/
structure MustSolution (G : FlowGraph α) (gen before after : α → Set β) : Prop where
  entry : before G.entry = ∅
  succ : ∀ a b, G.succ a b → before b ⊆ after a
  after_eq : ∀ a, after a = gen a ∪ before a

variable {gen before after : α → Set β} {x : β}

/-- A fact that holds at the end of a path was generated on it. -/
theorem MustSolution.exists_gen (hs : G.MustSolution gen before after) (hp : G.IsPath p n)
    (hx : x ∈ before (p n)) : ∃ k < n, x ∈ gen (p k) := by
  induction n with
  | zero =>
      rw [hp.start, hs.entry] at hx
      cases hx
  | succ n ih =>
      have hafter := hs.succ _ _ (hp.step n (by omega)) hx
      rw [hs.after_eq] at hafter
      rcases hafter with hgen | hbefore
      · exact ⟨n, by omega, hgen⟩
      · obtain ⟨k, hk, hgen⟩ := ih (hp.take (by omega)) hbefore
        exact ⟨k, by omega, hgen⟩

/-- It was generated after every visit of a node that strictly
dominates all nodes that generate it. -/
theorem MustSolution.exists_gen_after (hs : G.MustSolution gen before after) (hp : G.IsPath p n)
    (hx : x ∈ before (p n)) {c : α} (hdom : ∀ g, x ∈ gen g → G.StrictlyDominates c g)
    {m : Nat} (hm : m < n) (hc : p m = c) : ∃ k, m < k ∧ k < n ∧ x ∈ gen (p k) := by
  classical
  have hvisit : ∃ f, p f = c := ⟨m, hc⟩
  -- cut from the first visit of `c` to the one at `m`
  have hfirst : p (Nat.find hvisit) = c := Nat.find_spec hvisit
  have hfm : Nat.find hvisit ≤ m := Nat.find_min' hvisit hc
  generalize hf : Nat.find hvisit = f at hfirst hfm
  have hspliced := hp.splice hfm (Nat.le_of_lt hm) (hfirst.trans hc.symm)
  have hend : spliced p f m (f + (n - m)) = p n := by
    rw [spliced_of_lt (by omega)]
    congr 1
    omega
  obtain ⟨k, hk, hgen⟩ := hs.exists_gen hspliced (by rw [hend]; exact hx)
  by_cases hkf : k ≤ f
  · -- before the first visit nothing generates: `c` would come earlier
    rw [spliced_of_le hkf] at hgen
    obtain ⟨j, hj, hjc⟩ := hdom _ hgen p k (hp.take (by omega)) rfl
    have hmin : Nat.find hvisit ≤ j := Nat.find_min' hvisit hjc
    omega
  · rw [spliced_of_lt (by omega)] at hgen
    exact ⟨k - f + m, by omega, by omega, hgen⟩

/-- With several such nodes: the fact was generated after all visits of
all of them. -/
theorem MustSolution.exists_gen_after_all (hs : G.MustSolution gen before after)
    (hp : G.IsPath p n) (hx : x ∈ before (p n)) (cut : Set α)
    (hdom : ∀ c ∈ cut, ∀ g, x ∈ gen g → G.StrictlyDominates c g) :
    ∃ k < n, x ∈ gen (p k) ∧ ∀ m < n, p m ∈ cut → m < k := by
  by_cases hany : ∃ m < n, p m ∈ cut
  · -- the last visit decides
    obtain ⟨m, hm, hmc, hlast⟩ := exists_last hany
    obtain ⟨k, hmk, hkn, hgen⟩ := hs.exists_gen_after hp hx (hdom _ hmc) hm rfl
    refine ⟨k, hkn, hgen, ?_⟩
    intro j hj hjc
    have hle := hlast j hj hjc
    omega
  · obtain ⟨k, hk, hgen⟩ := hs.exists_gen hp hx
    exact ⟨k, hk, hgen, fun m hm hmc => absurd ⟨m, hm, hmc⟩ hany⟩

/-- And the generating node can be one that the fact does not hold at
when it is reached. -/
theorem MustSolution.exists_first_gen (hs : G.MustSolution gen before after)
    (hp : G.IsPath p n) (hx : x ∈ before (p n)) (cut : Set α)
    (hdom : ∀ c ∈ cut, ∀ g, x ∈ gen g → G.StrictlyDominates c g) :
    ∃ k < n, x ∈ gen (p k) ∧ x ∉ before (p k) ∧ ∀ m < n, p m ∈ cut → m < k := by
  classical
  have hsome := hs.exists_gen_after_all hp hx cut hdom
  obtain ⟨hk, hgen, hcut⟩ := Nat.find_spec hsome
  generalize hfind : Nat.find hsome = k at hk hgen hcut
  refine ⟨k, hk, hgen, ?_, hcut⟩
  -- else an earlier node would do
  intro hbefore
  obtain ⟨j, hj, hjgen, hjcut⟩ := hs.exists_gen_after_all (hp.take (Nat.le_of_lt hk)) hbefore cut hdom
  have hle : Nat.find hsome ≤ j :=
    Nat.find_min' hsome ⟨by omega, hjgen, fun m hm hmc => hjcut m (hcut m hm hmc) hmc⟩
  omega

end FlowGraph

end Carmot.Lib
