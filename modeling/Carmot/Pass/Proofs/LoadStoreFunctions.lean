/-
The functions whose loads and stores are instrumented are exactly the
callers of start tracking and everything they reach.

The visited set is shared by the visits of several roots, which are not
in it themselves, and grows while a visit is under way. `Visits` says
what one visit does to it, whatever it held before: it keeps what was
there, takes every edge it was given, adds only functions reachable
along them, and whatever it adds has its callees visited too. The last
part is the white-path argument: a function that was visited BEFORE is
skipped, and somebody else closes it. The depth of the recursion is
bounded by the functions not yet visited, since every call of the visit
adds one.
-/
import Mathlib.Logic.Relation
import Mathlib.Order.Nat
import Carmot.Pass.CallGraph

namespace Carmot.Pass

open Relation (ReflTransGen TransGen)

-- ============================================================ one visit

section Visit

variable {F : Type} (G : CallGraph F)

/-- What a visit along `edges` does to the visited functions. -/
structure Visits (edges visited visited' : List F) : Prop where
  keeps : ∀ f ∈ visited, f ∈ visited'
  takes : ∀ f ∈ edges, f ∈ visited'
  sound : ∀ f ∈ visited', f ∈ visited ∨ ∃ e ∈ edges, ReflTransGen G.Calls e f
  closed : ∀ f ∈ visited', f ∈ visited ∨ ∀ g, G.Calls f g → g ∈ visited'

variable {G} {f : F} {edges rest visited visited' visited'' : List F}

theorem Visits.nil : Visits G [] visited visited where
  keeps _ h := h
  takes _ h := by cases h
  sound _ h := .inl h
  closed _ h := .inl h

/-- An edge to a visited function adds nothing. -/
theorem Visits.skip (hf : f ∈ visited) (h : Visits G rest visited visited') :
    Visits G (f :: rest) visited visited' where
  keeps := h.keeps
  takes g hg := by
    rcases List.mem_cons.mp hg with hg | hg
    · rw [hg]; exact h.keeps f hf
    · exact h.takes g hg
  sound g hg := by
    rcases h.sound g hg with hg | ⟨e, he, hpath⟩
    · exact .inl hg
    · exact .inr ⟨e, List.mem_cons_of_mem f he, hpath⟩
  closed := h.closed

/-- An edge to a new function: the function and what its own visit
adds, then the other edges. -/
theorem Visits.cons (hinner : Visits G (G.outgoing f) (visited ++ [f]) visited')
    (hrest : Visits G rest visited' visited'') : Visits G (f :: rest) visited visited'' where
  keeps g hg := hrest.keeps g (hinner.keeps g (List.mem_append_left [f] hg))
  takes g hg := by
    rcases List.mem_cons.mp hg with hg | hg
    · rw [hg]
      exact hrest.keeps f (hinner.keeps f (List.mem_append_right visited (List.mem_singleton_self f)))
    · exact hrest.takes g hg
  sound g hg := by
    rcases hrest.sound g hg with hg | ⟨e, he, hpath⟩
    · rcases hinner.sound g hg with hg | ⟨e, he, hpath⟩
      · rcases List.mem_append.mp hg with hg | hg
        · exact .inl hg
        · rw [List.mem_singleton.mp hg]
          exact .inr ⟨f, List.mem_cons_self, .refl⟩
      · exact .inr ⟨f, List.mem_cons_self, .head he hpath⟩
    · exact .inr ⟨e, List.mem_cons_of_mem f he, hpath⟩
  closed g hg := by
    rcases hrest.closed g hg with hg | hg
    · rcases hinner.closed g hg with hg | hg
      · rcases List.mem_append.mp hg with hg | hg
        · exact .inl hg
        · rw [List.mem_singleton.mp hg]
          exact .inr fun h hcall => hrest.keeps h (hinner.takes h hcall)
      · exact .inr fun h hcall => hrest.keeps h (hg h hcall)
    · exact .inr hg

/-- Two visits, one after the other. -/
theorem Visits.append {edges' : List F} (h : Visits G edges visited visited')
    (h' : Visits G edges' visited' visited'') : Visits G (edges ++ edges') visited visited'' where
  keeps f hf := h'.keeps f (h.keeps f hf)
  takes f hf := by
    rcases List.mem_append.mp hf with hf | hf
    · exact h'.keeps f (h.takes f hf)
    · exact h'.takes f hf
  sound f hf := by
    rcases h'.sound f hf with hf | ⟨e, he, hpath⟩
    · rcases h.sound f hf with hf | ⟨e, he, hpath⟩
      · exact .inl hf
      · exact .inr ⟨e, List.mem_append_left edges' he, hpath⟩
    · exact .inr ⟨e, List.mem_append_right edges he, hpath⟩
  closed f hf := by
    rcases h'.closed f hf with hf | hf
    · rcases h.closed f hf with hf | hf
      · exact .inl hf
      · exact .inr fun g hcall => h'.keeps g (hf g hcall)
    · exact .inr hf

/-- A visit from nothing finds exactly what the edges reach. -/
theorem Visits.mem_iff (h : Visits G edges [] visited) {f : F} :
    f ∈ visited ↔ ∃ e ∈ edges, ReflTransGen G.Calls e f := by
  constructor
  · intro hf
    rcases h.sound f hf with hf | hf
    · cases hf
    · exact hf
  · rintro ⟨e, he, hpath⟩
    induction hpath with
    | refl => exact h.takes e he
    | tail _ hcall ih =>
        rcases h.closed _ ih with hf | hf
        · cases hf
        · exact hf _ hcall

end Visit

-- ============================================================ the depth

section Depth

variable {F : Type} [DecidableEq F] (G : CallGraph F)

/-- How many functions a visit can still add. -/
def unvisited (visited : List F) : Nat := (G.functions.filter fun f => f ∉ visited).length

variable {G} {f : F} {edges visited visited' : List F}

theorem unvisited_le (h : ∀ f ∈ visited, f ∈ visited') : unvisited G visited' ≤ unvisited G visited := by
  unfold unvisited
  apply List.Sublist.length_le
  apply List.monotone_filter_right
  intro g hg
  simp only [decide_eq_true_eq] at hg ⊢
  exact fun hmem => hg (h g hmem)

theorem unvisited_lt (hf : f ∈ G.functions) (hnew : f ∉ visited) :
    unvisited G (visited ++ [f]) < unvisited G visited := by
  unfold unvisited
  have hsplit : (G.functions.filter fun g => g ∉ visited ++ [f])
      = (G.functions.filter fun g => g ∉ visited).filter fun g => g ≠ f := by
    rw [List.filter_filter]
    apply List.filter_congr
    intro g _
    simp [and_comm]
  rw [hsplit]
  refine List.length_filter_lt_length_iff_exists.mpr ⟨f, ?_, by simp⟩
  exact List.mem_filter.mpr ⟨hf, by simpa using hnew⟩

/-- A visit with depth for the functions that are left ends. -/
theorem visitOutgoingEdges_visits (depth : Nat) :
    ∀ (edges visited : List F), (∀ f ∈ edges, f ∈ G.functions) → unvisited G visited < depth →
      ∃ visited', visitOutgoingEdges G depth edges visited = some visited'
        ∧ Visits G edges visited visited' := by
  induction depth with
  | zero => intro edges visited _ h; exact absurd h (Nat.not_lt_zero _)
  | succ depth ih =>
      intro edges
      -- the edges in turn: the bound only improves as functions are added
      induction edges with
      | nil => intro visited _ _; exact ⟨visited, rfl, Visits.nil⟩
      | cons f rest ihrest =>
          intro visited hmem hlt
          have hrestmem := fun g hg => hmem g (List.mem_cons_of_mem f hg)
          unfold visitOutgoingEdges at ihrest ⊢
          rw [List.foldlM_cons]
          by_cases hf : f ∈ visited
          · obtain ⟨visited', heq, hv⟩ := ihrest visited hrestmem hlt
            rw [if_pos hf]
            exact ⟨visited', heq, hv.skip hf⟩
          · have hfun := hmem f List.mem_cons_self
            have hdown := unvisited_lt hfun hf
            obtain ⟨visited', heq, hv⟩ := ih (G.outgoing f) (visited ++ [f])
              (fun g hg => G.mem_functions f g hg) (by omega)
            have hle : unvisited G visited' ≤ unvisited G (visited ++ [f]) := unvisited_le hv.keeps
            obtain ⟨visited'', heq', hv'⟩ := ihrest visited' hrestmem (by omega)
            rw [if_neg hf, heq]
            exact ⟨visited'', heq', hv.cons hv'⟩

-- =============================================================== all roots

/-- The loop over the callers is one visit along all their edges. -/
theorem visitChildren_visits (depth : Nat) (hdepth : G.functions.length < depth)
    (children : List F) : ∀ visited : List F, ∃ visited',
      visitChildren G depth children visited = some visited'
        ∧ Visits G (children.flatMap G.outgoing) visited visited' := by
  induction children with
  | nil => intro visited; exact ⟨visited, rfl, Visits.nil⟩
  | cons c rest ih =>
      intro visited
      obtain ⟨visited', heq, hv⟩ := visitOutgoingEdges_visits depth (G.outgoing c) visited
        (fun g hg => G.mem_functions c g hg)
        (Nat.lt_of_le_of_lt (List.length_filter_le ..) hdepth)
      obtain ⟨visited'', heq', hv'⟩ := ih visited'
      refine ⟨visited'', ?_, ?_⟩
      · unfold visitChildren at heq' ⊢
        rw [List.foldlM_cons, heq]
        exact heq'
      · rw [List.flatMap_cons]
        exact hv.append hv'

/-- The callers, each once. -/
theorem mem_getFunctionsThatCallStartTracking {start f : F} :
    f ∈ getFunctionsThatCallStartTracking G start ↔ G.Calls f start := by
  have hfold : ∀ (xs callers : List F),
      f ∈ xs.foldl (fun callers caller => if caller ∈ callers then callers else callers ++ [caller])
        callers ↔ f ∈ callers ∨ f ∈ xs := by
    intro xs
    induction xs with
    | nil => intro callers; simp
    | cons x xs ih =>
        intro callers
        rw [List.foldl_cons, ih, List.mem_cons]
        by_cases hx : x ∈ callers
        · rw [if_pos hx]
          constructor
          · rintro (h | h)
            · exact .inl h
            · exact .inr (.inr h)
          · rintro (h | h | h)
            · exact .inl h
            · rw [h]; exact .inl hx
            · exact .inr h
        · rw [if_neg hx, List.mem_append, List.mem_singleton, or_assoc]
  unfold getFunctionsThatCallStartTracking
  rw [hfold, G.mem_incoming]
  simp [CallGraph.Calls]

end Depth

-- =============================================================== the union

/-- Whatever the order of its arguments, `std::set_union` passes on
every element of both. -/
theorem mem_setUnion {F : Type} [LinearOrder F] {f : F} (xs ys : List F) :
    f ∈ setUnion xs ys ↔ f ∈ xs ∨ f ∈ ys := by
  fun_induction setUnion xs ys with
  | case1 ys => simp
  | case2 x xs => simp
  | case3 x xs y ys hlt ih => simp [ih, or_assoc]
  | case4 x xs y ys hlt hlt' ih =>
      rw [List.mem_cons, ih, List.mem_cons (b := y)]
      exact or_left_comm
  | case5 x xs y ys hlt hlt' ih =>
      have hxy : x = y := le_antisymm (not_lt.mp hlt') (not_lt.mp hlt)
      rw [List.mem_cons, ih, hxy, List.mem_cons, List.mem_cons]
      tauto

/-- `getFunctionsToInstrumentLoadStore` ends and returns the callers of
start tracking and everything they reach. -/
theorem getFunctionsToInstrumentLoadStore_exact {F : Type} [LinearOrder F] (G : CallGraph F)
    (order : List F → List F) (horder : ∀ fs, (order fs).Perm fs) (startTrackingFunction : F)
    (depth : Nat) (hdepth : G.functions.length < depth) :
    ∃ fs, getFunctionsToInstrumentLoadStore G order startTrackingFunction depth = some fs
      ∧ ∀ f, f ∈ fs ↔ G.Calls f startTrackingFunction
          ∨ ∃ c, G.Calls c startTrackingFunction ∧ TransGen G.Calls c f := by
  obtain ⟨visited, heq, hvisits⟩ := visitChildren_visits depth hdepth
    (order (getFunctionsThatCallStartTracking G startTrackingFunction)) []
  unfold getFunctionsToInstrumentLoadStore
  simp only [heq]
  refine ⟨_, rfl, fun f => ?_⟩
  rw [mem_setUnion, (horder _).mem_iff, (horder _).mem_iff, hvisits.mem_iff,
    mem_getFunctionsThatCallStartTracking]
  apply or_congr_right
  constructor
  · rintro ⟨e, he, hpath⟩
    obtain ⟨c, hc, hce⟩ := List.mem_flatMap.mp he
    rw [(horder _).mem_iff, mem_getFunctionsThatCallStartTracking] at hc
    exact ⟨c, hc, TransGen.head' hce hpath⟩
  · rintro ⟨c, hc, hpath⟩
    obtain ⟨e, hce, hpath⟩ := TransGen.head'_iff.mp hpath
    refine ⟨e, List.mem_flatMap.mpr ⟨c, ?_, hce⟩, hpath⟩
    rw [(horder _).mem_iff, mem_getFunctionsThatCallStartTracking]
    exact hc

/-- Function 0 is start tracking; 1 calls it and 2; 2 and 3 call each
other; 4 calls 1. -/
theorem functionsToInstrument_twoCallees :
    ∃ fs, getFunctionsToInstrumentLoadStore
        (CallGraph.ofPairs [(1, 0), (1, 2), (2, 3), (3, 2), (4, 1)]) List.reverse 0 6 = some fs
      ∧ ∀ f, f ∈ fs ↔ (CallGraph.ofPairs [(1, 0), (1, 2), (2, 3), (3, 2), (4, 1)]).Calls f 0
          ∨ ∃ c, (CallGraph.ofPairs [(1, 0), (1, 2), (2, 3), (3, 2), (4, 1)]).Calls c 0
            ∧ TransGen (CallGraph.ofPairs [(1, 0), (1, 2), (2, 3), (3, 2), (4, 1)]).Calls c f :=
  getFunctionsToInstrumentLoadStore_exact _ List.reverse List.reverse_perm 0 6 (by decide)

end Carmot.Pass
