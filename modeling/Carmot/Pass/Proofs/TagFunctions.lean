/-
The functions whose stack variables are instrumented are exactly those
with a body from which start tracking is reachable.

The tool visits the call graph against its edges, so what it finds is a
visit of the turned graph from start tracking. `visit` asks whether a
node is visited before it goes on, `visitOutgoingEdges` before it goes
there: where the second comes to an end the first does too, with the
same result (`foldlM_visit`), so the facts of the one are those of the
other.
-/
import Carmot.Pass.TagFunctions
import Carmot.Pass.Proofs.LoadStoreFunctions

namespace Carmot.Pass

open Relation (ReflTransGen)

variable {F : Type} [DecidableEq F]

-- ======================================================== the turned graph

/-- The call graph with its edges turned; the callers are among
`nodes`. -/
def CallGraph.turned (G : CallGraph F) (nodes : List F)
    (hnodes : ∀ f g, G.Calls f g → f ∈ nodes) : CallGraph F where
  functions := nodes
  outgoing := G.incoming
  incoming := fun g => (G.outgoing g).dedup
  mem_functions g f h := hnodes f g ((G.mem_incoming f g).mp h)
  mem_incoming g f := by
    rw [List.mem_dedup, G.mem_incoming]
  nodup_incoming _ := List.nodup_dedup _

section Turned

variable {G : CallGraph F} {nodes : List F} {hnodes : ∀ f g, G.Calls f g → f ∈ nodes}

theorem reaches_turned {f g : F} :
    ReflTransGen (G.turned nodes hnodes).Calls g f ↔ ReflTransGen G.Calls f g := by
  have hcalls : (G.turned nodes hnodes).Calls = Function.swap G.Calls := by
    funext a b
    exact propext (G.mem_incoming b a)
  rw [hcalls]
  exact Relation.reflTransGen_swap

/-- Where the visit along edges ends, so does the visit of the nodes
they lead to. -/
theorem foldlM_visit (depth : Nat) : ∀ (edges functions : List F) {functions' : List F},
    visitOutgoingEdges (G.turned nodes hnodes) depth edges functions = some functions' →
      edges.foldlM (fun functions node => TagFunctions.visit G depth node functions) functions
        = some functions' := by
  induction depth with
  | zero => intro edges functions functions' h; cases h
  | succ depth ih =>
      intro edges
      induction edges with
      | nil => exact fun functions functions' h => h
      | cons node edges ihedges =>
          intro functions functions' h
          rw [List.foldlM_cons]
          unfold visitOutgoingEdges at h ihedges
          rw [List.foldlM_cons] at h
          unfold TagFunctions.visit at ihedges ⊢
          by_cases hnode : node ∈ functions
          · rw [if_pos hnode] at h ⊢
            exact ihedges functions h
          · rw [if_neg hnode] at h ⊢
            obtain ⟨functions'', hinner, hrest⟩ := Option.bind_eq_some_iff.mp h
            rw [ih (G.incoming node) (functions ++ [node]) hinner]
            exact ihedges functions'' hrest

end Turned

-- ============================================================== the result

/-- The tool finds the functions with a body from which start tracking
is reachable. -/
theorem findFunctionsToInstrument_exact (G : CallGraph F) (empty : F → Bool)
    (startTrackingFunction : F) {nodes : List F} (hnodes : ∀ f g, G.Calls f g → f ∈ nodes)
    {depth : Nat} (hdepth : nodes.length + 1 < depth) :
    ∃ fs, TagFunctions.findFunctionsToInstrument G empty (some startTrackingFunction) depth = some fs
      ∧ ∀ f, f ∈ fs ↔ ReflTransGen G.Calls f startTrackingFunction ∧ empty f = false := by
  let turned := G.turned (startTrackingFunction :: nodes)
    fun f g h => List.mem_cons_of_mem startTrackingFunction (hnodes f g h)
  have hle : unvisited turned [] ≤ nodes.length + 1 :=
    List.length_filter_le _ (startTrackingFunction :: nodes)
  obtain ⟨functions, heq, hvisits⟩ := visitOutgoingEdges_visits (G := turned) depth
    [startTrackingFunction] []
    (fun f hf => by rw [List.mem_singleton.mp hf]; exact List.mem_cons_self)
    (Nat.lt_of_le_of_lt hle hdepth)
  have hvisit : TagFunctions.visit G depth startTrackingFunction [] = some functions := by
    have h := foldlM_visit depth _ _ heq
    rw [List.foldlM_cons] at h
    obtain ⟨functions', hone, hnil⟩ := Option.bind_eq_some_iff.mp h
    rw [hone, ← Option.some_inj.mp hnil]
  refine ⟨functions.filter fun f => !empty f,
    congrArg (Option.map fun fs : List F => fs.filter fun f => !empty f) hvisit, fun f => ?_⟩
  rw [List.mem_filter, hvisits.mem_iff]
  simp only [List.mem_singleton, exists_eq_left, Bool.not_eq_true']
  exact and_congr_left fun _ => reaches_turned

/-- The pass finds the functions the tool has tagged, if none was
before. -/
theorem mem_findFunctionsToInstrument {M functionsToTag : List F}
    {attrs : F → TagFunctions.FunctionAttrs} (hattrs : ∀ f, (attrs f).optimizeLocals = false) {f : F} :
    f ∈ (findFunctionsToInstrument M (TagFunctions.tagFunctionsOptNone functionsToTag attrs)).1
      ↔ f ∈ M ∧ f ∈ functionsToTag := by
  unfold findFunctionsToInstrument TagFunctions.tagFunctionsOptNone
  rw [List.mem_filter]
  apply and_congr_right
  intro _
  by_cases hf : f ∈ functionsToTag
  · rw [if_pos hf]
    exact ⟨fun _ => hf, fun _ => rfl⟩
  · rw [if_neg hf]
    exact ⟨fun h => absurd (h.symm.trans (hattrs f)) Bool.noConfusion, fun h => absurd h hf⟩

end Carmot.Pass
