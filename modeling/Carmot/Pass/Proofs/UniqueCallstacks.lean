/-
When the functions that are taken to have one call stack do have one.

`visitDepthFirst` follows call edges from the entry as long as the
callee has at most one incoming edge. NOELLE's edges merge the call
sites of a caller, and the entry is reached by no edge at all, so two
things can give such a function a second stack: a caller that calls it
at two sites, and a call that comes back to the entry. With neither,
the stack is the one path the visit took (`reaches_unique`), and the
visit ends: a function it met twice on one path would have to be met
again from its only caller, back to the entry (`cycle_entry`). There is
no set of visited functions, so a visit that does come back to the entry
never ends (`visitDepthFirst_loops`).

`Program` is what the call graph abstracts from: calls with their
sites. A call stack is a path of calls from the entry.
-/
import Mathlib.Data.List.Perm.Subperm
import Mathlib.Logic.Relation
import Carmot.Pass.CallGraph

namespace Carmot.Pass

open Relation (ReflTransGen TransGen)

-- ========================================================== the program

/-- One call a site can make: an indirect one makes several. -/
structure SiteCall (F : Type) where
  site : Nat
  caller : F
  callee : F
  deriving DecidableEq, Repr

/-- A program, as far as its call stacks go. -/
structure Program (F : Type) where
  entry : F
  calls : List (SiteCall F)

variable {F : Type}

/-- The call stacks with which the executions of a program enter a
function, innermost site first. -/
inductive Program.Reaches (P : Program F) : List Nat → F → Prop
  | entry : P.Reaches [] P.entry
  | call {stack : List Nat} (c : SiteCall F) (hstack : P.Reaches stack c.caller)
      (hc : c ∈ P.calls) : P.Reaches (c.site :: stack) c.callee

/-- NOELLE's graph of a program: an edge where there is a call. -/
def CallGraph.Of (G : CallGraph F) (P : Program F) : Prop :=
  ∀ f g, G.Calls f g ↔ ∃ c ∈ P.calls, c.caller = f ∧ c.callee = g

/-- The graph of a program's calls. -/
def Program.callGraph [DecidableEq F] (P : Program F) : CallGraph F :=
  CallGraph.ofPairs (P.calls.map fun c => (c.caller, c.callee))

theorem Program.callGraph_of [DecidableEq F] (P : Program F) : P.callGraph.Of P := by
  intro f g
  unfold Program.callGraph
  rw [CallGraph.calls_ofPairs, List.mem_map]
  simp only [Prod.mk.injEq]

-- ================================================= what the visit takes

namespace CallGraph

variable (G : CallGraph F)

/-- A step of the visit: a call of a function with one incoming edge. -/
def Follows (f g : F) : Prop := G.Calls f g ∧ (G.incoming g).length ≤ 1

/-- The functions a visit from `node` takes. -/
def Takes (node f : F) : Prop := (G.incoming node).length ≤ 1 ∧ ReflTransGen G.Follows node f

variable {G} {f g h node : F}

/-- A function with one incoming edge has one caller. -/
theorem caller_unique (hg : (G.incoming g).length ≤ 1) (hf : G.Calls f g) (hh : G.Calls h g) :
    f = h := by
  have hfi := (G.mem_incoming f g).mpr hf
  have hhi := (G.mem_incoming h g).mpr hh
  match hin : G.incoming g with
  | [] => rw [hin] at hfi; cases hfi
  | [x] =>
      rw [hin] at hfi hhi
      rw [List.mem_singleton.mp hfi, List.mem_singleton.mp hhi]
  | x :: y :: rest =>
      rw [hin, List.length_cons, List.length_cons] at hg
      omega

/-- What a visit takes: the function itself, and what the visits of its
callees take. -/
theorem takes_iff (hnode : (G.incoming node).length ≤ 1) :
    G.Takes node f ↔ f = node ∨ ∃ next ∈ G.outgoing node, G.Takes next f := by
  constructor
  · rintro ⟨-, hpath⟩
    rcases ReflTransGen.cases_head hpath with heq | ⟨next, hstep, hrest⟩
    · exact .inl heq.symm
    · exact .inr ⟨next, hstep.1, hstep.2, hrest⟩
  · rintro (heq | ⟨next, hcall, hnext, hrest⟩)
    · rw [heq]
      exact ⟨hnode, .refl⟩
    · exact ⟨hnode, .head ⟨hcall, hnext⟩ hrest⟩

/-- A function the visit can come back to is on a cycle with the node it
started from. -/
theorem cycle_entry {entry : F} (hpath : ReflTransGen G.Follows entry f)
    (hcycle : TransGen G.Follows f f) : TransGen G.Follows entry entry := by
  induction hpath with
  | refl => exact hcycle
  | tail hpath hstep ih =>
      -- the cycle enters through the only caller, so it goes through that
      obtain ⟨last, hrest, hlast⟩ := TransGen.tail'_iff.mp hcycle
      rw [caller_unique hstep.2 hlast.1 hstep.1] at hrest
      exact ih (TransGen.head' hstep hrest)

theorem Takes.incoming_le (h : G.Takes node f) : (G.incoming f).length ≤ 1 := by
  rcases ReflTransGen.cases_tail h.2 with heq | ⟨last, -, hstep⟩
  · rw [heq]
    exact h.1
  · exact hstep.2

theorem Follows.calls : ∀ {f g : F}, G.Follows f g → G.Calls f g := fun h => h.1

end CallGraph

-- ============================================================ the visit

section Visit

variable [DecidableEq F] {G : CallGraph F}

/-- What a finished visit has taken. -/
theorem visitDepthFirst_mem (depth : Nat) : ∀ {node : F} {taken taken' : List F},
    visitDepthFirst G depth node taken = some taken' →
      ∀ f, f ∈ taken' ↔ f ∈ taken ∨ G.Takes node f := by
  induction depth with
  | zero => intro node taken taken' h; cases h
  | succ depth ih =>
      intro node taken taken' h f
      have hloop : ∀ (nodes taken taken' : List F),
          nodes.foldlM (fun taken next => visitDepthFirst G depth next taken) taken = some taken' →
            (f ∈ taken' ↔ f ∈ taken ∨ ∃ next ∈ nodes, G.Takes next f) := by
        intro nodes
        induction nodes with
        | nil =>
            intro taken taken' h
            injection h with h
            rw [h]
            simp
        | cons next nodes ihn =>
            intro taken taken' h
            rw [List.foldlM_cons] at h
            obtain ⟨mid, hmid, hrest⟩ := Option.bind_eq_some_iff.mp h
            rw [ihn mid taken' hrest, ih hmid f, or_assoc]
            simp
      unfold visitDepthFirst at h
      split at h
      next hmany =>
        injection h with h
        rw [h]
        exact ⟨.inl, fun hf => hf.elim id fun ht => absurd ht.1 (Nat.not_le.mpr hmany)⟩
      next hfew =>
        rw [hloop _ _ _ h, CallGraph.takes_iff (Nat.le_of_not_lt hfew)]
        by_cases hnode : node ∈ taken
        · rw [if_pos hnode]
          constructor
          · rintro (hf | hf)
            · exact .inl hf
            · exact .inr (.inr hf)
          · rintro (hf | hf | hf)
            · exact .inl hf
            · rw [hf]; exact .inl hnode
            · exact .inr hf
        · rw [if_neg hnode, List.mem_append, List.mem_singleton, or_assoc]

/-- The visit ends if it does not come back to where it started. The
functions on the way from the entry are all different, so the depth is
bounded by their number. -/
theorem visitDepthFirst_ends {entry : F} (hno : ¬ TransGen G.Follows entry entry) (depth : Nat) :
    ∀ (path taken : List F) (node : F), ReflTransGen G.Follows entry node → path.Nodup →
      (∀ f ∈ path, f ∈ entry :: G.functions ∧ ReflTransGen G.Follows f node) →
      G.functions.length + 1 < depth + path.length →
      ∃ taken', visitDepthFirst G (depth + 1) node taken = some taken' := by
  induction depth with
  | zero =>
      intro path taken node _ hnd hpath hlt
      have hle : path.length ≤ (entry :: G.functions).length :=
        (hnd.subperm fun f hf => (hpath f hf).1).length_le
      rw [List.length_cons] at hle
      omega
  | succ depth ih =>
      intro path taken node hnode hnd hpath hlt
      have hloop : ∀ (nodes taken : List F), (∀ next ∈ nodes, G.Calls node next) →
          ∃ taken', nodes.foldlM (fun taken next => visitDepthFirst G (depth + 1) next taken) taken
            = some taken' := by
        intro nodes
        induction nodes with
        | nil => intro taken _; exact ⟨taken, rfl⟩
        | cons next nodes ihn =>
            intro taken hcalls
            have hcall := hcalls next List.mem_cons_self
            have hfirst : ∃ mid, visitDepthFirst G (depth + 1) next taken = some mid := by
              by_cases hmany : (G.incoming next).length > 1
              · exact ⟨taken, by rw [visitDepthFirst, if_pos hmany]⟩
              · have hstep : G.Follows node next := ⟨hcall, Nat.le_of_not_lt hmany⟩
                have hnew : next ∉ path := by
                  intro hmem
                  exact hno (CallGraph.cycle_entry (hnode.tail hstep)
                    (TransGen.tail' (hpath next hmem).2 hstep))
                refine ih (next :: path) taken next (hnode.tail hstep)
                  (List.nodup_cons.mpr ⟨hnew, hnd⟩) ?_ (by rw [List.length_cons]; omega)
                intro f hf
                rcases List.mem_cons.mp hf with hf | hf
                · rw [hf]
                  exact ⟨List.mem_cons_of_mem entry (G.mem_functions node next hcall), .refl⟩
                · exact ⟨(hpath f hf).1, (hpath f hf).2.tail hstep⟩
            obtain ⟨mid, hmid⟩ := hfirst
            obtain ⟨taken', hrest⟩ := ihn mid fun n hn => hcalls n (List.mem_cons_of_mem next hn)
            exact ⟨taken', by rw [List.foldlM_cons, hmid]; exact hrest⟩
      unfold visitDepthFirst
      split
      · exact ⟨taken, rfl⟩
      · exact hloop (G.outgoing node) _ fun next hnext => hnext

/-- `getUniqueCallstackFunctions` returns what the visit takes, if the
entry is not called from where it leads. -/
theorem getUniqueCallstackFunctions_ends {entry : F} (hno : ¬ TransGen G.Follows entry entry) :
    ∃ depth fs, getUniqueCallstackFunctions G entry depth = some fs := by
  obtain ⟨fs, hfs⟩ := visitDepthFirst_ends hno (G.functions.length + 1) [entry] [] entry .refl
    (List.nodup_singleton entry)
    (fun f hf => by
      rw [List.mem_singleton.mp hf]
      exact ⟨List.mem_cons_self, .refl⟩)
    (by rw [List.length_singleton]; omega)
  exact ⟨_, fs, hfs⟩

omit [DecidableEq F] in
/-- A loop fails at an element that always fails. -/
theorem foldlM_eq_none {visit : List F → F → Option (List F)} {next : F}
    (hnext : ∀ taken, visit taken next = none) :
    ∀ {nodes : List F}, next ∈ nodes → ∀ taken, nodes.foldlM visit taken = none := by
  intro nodes
  induction nodes with
  | nil => intro hmem; cases hmem
  | cons node nodes ih =>
      intro hmem taken
      rw [List.foldlM_cons]
      rcases List.mem_cons.mp hmem with heq | hmem
      · rw [← heq, hnext]
        rfl
      · cases visit taken node with
        | none => rfl
        | some mid => exact ih hmem mid

/-- The visit of a function it comes back to goes deeper than any
depth: the callee it goes on with is on the same cycle. -/
theorem visitDepthFirst_loops (depth : Nat) : ∀ {node : F}, TransGen G.Follows node node →
    ∀ taken, visitDepthFirst G depth node taken = none := by
  induction depth with
  | zero => intro node _ taken; rfl
  | succ depth ih =>
      intro node hcycle taken
      obtain ⟨next, hstep, hback⟩ := TransGen.head'_iff.mp hcycle
      obtain ⟨last, -, hlast⟩ := TransGen.tail'_iff.mp hcycle
      rw [visitDepthFirst, if_neg (Nat.not_lt.mpr hlast.2)]
      exact foldlM_eq_none (ih (TransGen.tail' hback hstep)) hstep.1 _

/-- The traversal ends exactly when no chain of calls leads from the
entry back to it through functions with one incoming edge each, the
entry included. -/
theorem getUniqueCallstackFunctions_terminates_iff (G : CallGraph F) (entryNode : F) :
    (∃ depth fs, getUniqueCallstackFunctions G entryNode depth = some fs) ↔
      ¬ TransGen G.Follows entryNode entryNode := by
  constructor
  · rintro ⟨depth, fs, hfs⟩ hcycle
    unfold getUniqueCallstackFunctions at hfs
    rw [visitDepthFirst_loops depth hcycle] at hfs
    cases hfs
  · exact getUniqueCallstackFunctions_ends

/-- An entry that only calls itself. -/
theorem not_terminates_recursiveEntry :
    ¬ ∃ depth fs, getUniqueCallstackFunctions (CallGraph.ofPairs [(0, 0)]) 0 depth = some fs := by
  rintro ⟨depth, fs, hfs⟩
  have hself : (CallGraph.ofPairs [(0, 0)]).Follows 0 0 := by
    refine ⟨CallGraph.calls_ofPairs.mpr (List.mem_singleton.mpr rfl), ?_⟩
    decide
  unfold getUniqueCallstackFunctions at hfs
  rw [visitDepthFirst_loops depth (.single hself)] at hfs
  cases hfs

end Visit

-- ============================================================ the stacks

section Stacks

variable {P : Program F} {G : CallGraph F} {f g : F} {stack stack' : List Nat}

/-- A stack is a path of call edges. -/
theorem Program.Reaches.path (hG : G.Of P) (h : P.Reaches stack f) :
    ReflTransGen G.Calls P.entry f := by
  induction h with
  | entry => exact .refl
  | call c _ hc ih => exact ih.tail ((hG c.caller c.callee).mpr ⟨c, hc, rfl, rfl⟩)

/-- Every path of call edges is taken with some stack. -/
theorem Program.exists_reaches (hG : G.Of P) (h : ReflTransGen G.Calls P.entry f) :
    ∃ stack, P.Reaches stack f := by
  induction h with
  | refl => exact ⟨[], .entry⟩
  | tail _ hcall ih =>
      obtain ⟨stack, hstack⟩ := ih
      obtain ⟨c, hc, rfl, rfl⟩ := (hG _ _).mp hcall
      exact ⟨c.site :: stack, .call c hstack hc⟩

/-- How a stack enters a function that is not the entry. -/
theorem Program.Reaches.of_ne (h : P.Reaches stack f) (hne : f ≠ P.entry) :
    ∃ c ∈ P.calls, ∃ rest, c.callee = f ∧ stack = c.site :: rest ∧ P.Reaches rest c.caller := by
  cases h with
  | entry => exact absurd rfl hne
  | call c hstack hc => exact ⟨c, hc, _, rfl, rfl, hstack⟩

/-- Where nothing comes back to it, the entry is entered once. -/
theorem Program.Reaches.entry_nil (hG : G.Of P) (hno : ¬ TransGen G.Calls P.entry P.entry)
    (h : P.Reaches stack f) (hf : f = P.entry) : stack = [] := by
  cases h with
  | entry => rfl
  | call c hstack hc =>
      refine absurd (TransGen.tail' (hstack.path hG) ?_) hno
      rw [← hf]
      exact (hG c.caller c.callee).mpr ⟨c, hc, rfl, rfl⟩

/-- No call comes back to the entry, and what the visit takes is called
at one site. -/
structure CalledOnce (P : Program F) (G : CallGraph F) : Prop where
  notRecursive : ¬ TransGen G.Calls P.entry P.entry
  oneSite : ∀ f, G.Takes P.entry f → f ≠ P.entry →
    ∀ c ∈ P.calls, ∀ c' ∈ P.calls, c.callee = f → c'.callee = f → c.site = c'.site

/-- Then a function the visit takes has one stack. -/
theorem reaches_unique (hG : G.Of P) (honce : CalledOnce P G)
    (hentry : (G.incoming P.entry).length ≤ 1) (hpath : ReflTransGen G.Follows P.entry f) :
    ∀ {stack stack'}, P.Reaches stack f → P.Reaches stack' f → stack = stack' := by
  induction hpath with
  | refl =>
      intro stack stack' h h'
      rw [h.entry_nil hG honce.notRecursive rfl, h'.entry_nil hG honce.notRecursive rfl]
  | @tail g f hpath hstep ih =>
      intro stack stack' h h'
      by_cases hf : f = P.entry
      · rw [h.entry_nil hG honce.notRecursive hf, h'.entry_nil hG honce.notRecursive hf]
      · obtain ⟨c, hc, rest, hcf, rfl, hrest⟩ := h.of_ne hf
        obtain ⟨c', hc', rest', hcf', rfl, hrest'⟩ := h'.of_ne hf
        have hcaller : ∀ d ∈ P.calls, d.callee = f → d.caller = g := by
          intro d hd hdf
          exact CallGraph.caller_unique hstep.2 ((hG d.caller f).mpr ⟨d, hd, rfl, hdf⟩) hstep.1
        rw [hcaller c hc hcf] at hrest
        rw [hcaller c' hc' hcf'] at hrest'
        rw [honce.oneSite f ⟨hentry, hpath.tail hstep⟩ hf c hc c' hc' hcf hcf', ih hrest hrest']

end Stacks

-- ========================================================== the cache

section Cache

variable [DecidableEq F] {T : Type}

/-- Entering functions one after the other, each with its stack: what
the calls of `getBacktraceUnique` return. `none` is an index out of
bounds. -/
def enterAll (indices : List (F × Nat)) (numberOfUniqueTraces : Nat) (capture : List Nat → T) :
    Option (List (Option T)) → List (F × List Nat) → Option (List T)
  | _, [] => some []
  | uniqueTraces, (f, stack) :: rest =>
      match indices.lookup f with
      | none => enterAll indices numberOfUniqueTraces capture uniqueTraces rest
      | some index =>
          match getBacktraceUnique uniqueTraces index numberOfUniqueTraces (capture stack) with
          | none => none
          | some (traces, trace) =>
              (enterAll indices numberOfUniqueTraces capture (some traces) rest).map (trace :: ·)

/-- The functions of the list that get an index. -/
theorem lookup_uniqueIndices (unique : List F) {f : F} : ∀ (functions : List F) (index : Nat),
    functions.Nodup → f ∈ functions → f ∈ unique →
      ∃ i, (uniqueIndices unique index functions).lookup f = some (index + i)
        ∧ i < (functions.filter fun g => g ∈ unique).length := by
  intro functions
  induction functions with
  | nil => intro index _ hf; cases hf
  | cons g functions ih =>
      intro index hnd hf hu
      obtain ⟨hg, hnd⟩ := List.nodup_cons.mp hnd
      unfold uniqueIndices
      by_cases hfg : f = g
      · subst hfg
        rw [if_pos hu]
        refine ⟨0, by rw [List.lookup_cons_self]; rfl, ?_⟩
        rw [List.filter_cons_of_pos (by simpa using hu), List.length_cons]
        omega
      · have hmem : f ∈ functions := (List.mem_cons.mp hf).resolve_left hfg
        by_cases hgu : g ∈ unique
        · obtain ⟨i, hi, hlt⟩ := ih (index + 1) hnd hmem hu
          refine ⟨i + 1, ?_, ?_⟩
          · have hne : (f == g) = false := beq_eq_false_iff_ne.mpr hfg
            rw [if_pos hgu, List.lookup_cons, hne]
            simp only [hi]
            congr 1
            omega
          · rw [List.filter_cons_of_pos (by simpa using hgu), List.length_cons]
            omega
        · obtain ⟨i, hi, hlt⟩ := ih index hnd hmem hu
          refine ⟨i, by rw [if_neg hgu, hi], ?_⟩
          rw [List.filter_cons_of_neg (by simpa using hgu)]
          exact hlt

/-- Indices only grow. -/
theorem le_of_lookup_uniqueIndices (unique : List F) {f : F} {i : Nat} :
    ∀ (functions : List F) (index : Nat),
      (uniqueIndices unique index functions).lookup f = some i → index ≤ i := by
  intro functions
  induction functions with
  | nil => intro index h; cases h
  | cons x functions ih =>
      intro index h
      unfold uniqueIndices at h
      split at h
      · rw [List.lookup_cons] at h
        split at h
        · injection h with h
          omega
        · have hle := ih (index + 1) h
          omega
      · exact ih index h

/-- Indices are not given twice. -/
theorem lookup_uniqueIndices_inj (unique : List F) {f g : F} {i : Nat} :
    ∀ (functions : List F) (index : Nat),
      (uniqueIndices unique index functions).lookup f = some i →
      (uniqueIndices unique index functions).lookup g = some i → f = g := by
  intro functions
  induction functions with
  | nil => intro index hf; cases hf
  | cons x functions ih =>
      intro index hf hg
      unfold uniqueIndices at hf hg
      split at hf
      next hx =>
        rw [if_pos hx, List.lookup_cons] at hg
        rw [List.lookup_cons] at hf
        split at hf
        next hfx =>
          injection hf with hf
          split at hg
          next hgx => rw [beq_iff_eq.mp hfx, beq_iff_eq.mp hgx]
          next hgx =>
            have hle := le_of_lookup_uniqueIndices unique functions (index + 1) hg
            omega
        next hfx =>
          split at hg
          next hgx =>
            injection hg with hg
            have hle := le_of_lookup_uniqueIndices unique functions (index + 1) hf
            omega
          next hgx => exact ih (index + 1) hf hg
      next hx =>
        rw [if_neg hx] at hg
        exact ih index hf hg

/-- The vector holds nothing but each function's own trace. -/
structure CacheInv (indices : List (F × Nat)) (numberOfUniqueTraces : Nat) (trace : F → T)
    (traces : List (Option T)) : Prop where
  length_eq : traces.length = numberOfUniqueTraces
  own : ∀ f i t, indices.lookup f = some i → traces[i]? = some (some t) → t = trace f

/-- An index is below the size of the vector. -/
theorem lookup_uniqueIndices_lt {unique functions : List F} (hnd : functions.Nodup) {f : F}
    (hf : f ∈ functions) (hu : f ∈ unique) :
    ∃ i < unique.length, (uniqueIndices unique 0 functions).lookup f = some i := by
  obtain ⟨i, hi, hlt⟩ := lookup_uniqueIndices unique functions 0 hnd hf hu
  have hle : (functions.filter fun g => g ∈ unique).length ≤ unique.length := by
    apply ((hnd.filter _).subperm fun g hg => ?_).length_le
    simpa using (List.mem_filter.mp hg).2
  rw [Nat.zero_add] at hi
  exact ⟨i, Nat.lt_of_lt_of_le hlt hle, hi⟩

/-- A slot filled with its function's trace. -/
theorem CacheInv.set {unique functions : List F} {trace : F → T} {traces : List (Option T)}
    (h : CacheInv (uniqueIndices unique 0 functions) unique.length trace traces) {f : F} {i : Nat}
    (hi : (uniqueIndices unique 0 functions).lookup f = some i) (hlt : i < traces.length) :
    CacheInv (uniqueIndices unique 0 functions) unique.length trace
      (traces.set i (some (trace f))) := by
  refine ⟨by rw [List.length_set, h.length_eq], ?_⟩
  intro g j t hj ht
  by_cases hij : i = j
  · subst hij
    rw [List.getElem?_set_self hlt] at ht
    injection ht with ht
    injection ht with ht
    rw [← ht, lookup_uniqueIndices_inj unique functions 0 hi hj]
  · rw [List.getElem?_set_ne hij] at ht
    exact h.own g j t hj ht

/-- The calls of `getBacktraceUnique` of a run return each function's
own trace. -/
theorem enterAll_eq {unique functions : List F} (hnd : functions.Nodup) (trace : F → T)
    {capture : List Nat → T} :
    ∀ (run : List (F × List Nat)) (uniqueTraces : Option (List (Option T))),
      (∀ e ∈ run, e.1 ∈ functions ∧ e.1 ∈ unique ∧ capture e.2 = trace e.1) →
      CacheInv (uniqueIndices unique 0 functions) unique.length trace
        (uniqueTraces.getD (List.replicate unique.length none)) →
      enterAll (uniqueIndices unique 0 functions) unique.length capture uniqueTraces run
        = some (run.map fun e => capture e.2) := by
  intro run
  induction run with
  | nil => intro _ _ _; rfl
  | cons e run ih =>
      intro uniqueTraces hrun hinv
      obtain ⟨f, stack⟩ := e
      obtain ⟨hf, hu, hcap⟩ := hrun (f, stack) List.mem_cons_self
      have hrest := fun e he => hrun e (List.mem_cons_of_mem _ he)
      obtain ⟨i, hlt, hi⟩ := lookup_uniqueIndices_lt hnd hf hu
      have hbound : i < (uniqueTraces.getD (List.replicate unique.length none)).length := by
        rw [hinv.length_eq]
        exact hlt
      unfold enterAll getBacktraceUnique
      simp only [hi]
      rw [List.getElem?_eq_getElem hbound]
      cases hslot : (uniqueTraces.getD (List.replicate unique.length none))[i] with
      | some t =>
          have ht : t = trace f := by
            apply hinv.own f i t hi
            rw [List.getElem?_eq_getElem hbound, hslot]
          have hnext := ih (some (uniqueTraces.getD (List.replicate unique.length none))) hrest hinv
          simp only [hnext, Option.map_some, List.map_cons, ht, hcap]
      | none =>
          have hinv' := hinv.set hi hbound
          rw [← hcap] at hinv'
          have hnext := ih (some ((uniqueTraces.getD (List.replicate unique.length none)).set i
            (some (capture stack)))) hrest hinv'
          simp only [hnext, Option.map_some, List.map_cons]

end Cache

-- ===================================================== the two sides

/-- The functions `getUniqueCallstackFunctions` returns are entered with
one stack each, and the trace cached for a function is the one every
later entry would capture. -/
def OneStack [DecidableEq F] (P : Program F) (G : CallGraph F) : Prop :=
  ∃ depth unique, getUniqueCallstackFunctions G P.entry depth = some unique
    ∧ (∀ f ∈ unique, ∀ stack stack', P.Reaches stack f → P.Reaches stack' f → stack = stack')
    ∧ ∀ (T : Type) (capture : List Nat → T) (functions : List F) (run : List (F × List Nat)),
      functions.Nodup →
      (∀ e ∈ run, e.1 ∈ functions ∧ e.1 ∈ unique ∧ P.Reaches e.2 e.1) →
      enterAll (uniqueIndices unique 0 functions) unique.length capture none run
        = some (run.map fun e => capture e.2)

/-- One stack for each function is enough for the cache. -/
theorem cached_of_unique [DecidableEq F] {P : Program F} {unique : List F}
    (hunique : ∀ f ∈ unique, ∀ stack stack', P.Reaches stack f → P.Reaches stack' f →
      stack = stack')
    {T : Type} (capture : List Nat → T) {functions : List F} (hnd : functions.Nodup)
    {run : List (F × List Nat)}
    (hrun : ∀ e ∈ run, e.1 ∈ functions ∧ e.1 ∈ unique ∧ P.Reaches e.2 e.1) :
    enterAll (uniqueIndices unique 0 functions) unique.length capture none run
      = some (run.map fun e => capture e.2) := by
  classical
  let trace : F → T := fun f =>
    if h : ∃ stack, P.Reaches stack f then capture h.choose else capture []
  refine enterAll_eq hnd trace run none (fun e he => ?_) ⟨List.length_replicate, ?_⟩
  · obtain ⟨hf, hu, hreach⟩ := hrun e he
    have hex : ∃ stack, P.Reaches stack e.1 := ⟨e.2, hreach⟩
    refine ⟨hf, hu, ?_⟩
    show capture e.2 = if h : ∃ stack, P.Reaches stack e.1 then capture h.choose else capture []
    rw [dif_pos hex, hunique e.1 hu _ _ hreach hex.choose_spec]
  · intro f i t _ ht
    have hmem := List.mem_of_getElem? ht
    exact absurd (List.eq_of_mem_replicate hmem) (by simp)

/-- Where each function taken has one stack, no call comes back to the
entry and each function is called at one site. -/
theorem calledOnce_of_stacks {P : Program F} {G : CallGraph F} (hG : G.Of P)
    (hentry : (G.incoming P.entry).length ≤ 1)
    (hstacks : ∀ f, G.Takes P.entry f → ∀ stack stack', P.Reaches stack f → P.Reaches stack' f →
      stack = stack') : CalledOnce P G := by
  constructor
  · intro hcycle
    obtain ⟨last, hpath, hcall⟩ := TransGen.tail'_iff.mp hcycle
    obtain ⟨stack, hstack⟩ := Program.exists_reaches hG hpath
    obtain ⟨c, hc, rfl, hcallee⟩ := (hG _ _).mp hcall
    have hback : P.Reaches (c.site :: stack) P.entry := by
      rw [← hcallee]
      exact .call c hstack hc
    exact List.cons_ne_nil _ _ (hstacks P.entry ⟨hentry, .refl⟩ _ _ hback .entry)
  · intro f hf hne c hc c' hc' hcf hcf'
    obtain ⟨g, hpath, hstep⟩ := (ReflTransGen.cases_tail hf.2).resolve_left hne
    obtain ⟨stack, hstack⟩ := Program.exists_reaches hG
      (hpath.lift id fun _ _ h => CallGraph.Follows.calls h)
    have hsite : ∀ d ∈ P.calls, d.callee = f → P.Reaches (d.site :: stack) f := by
      intro d hd hdf
      have hcaller : d.caller = g :=
        CallGraph.caller_unique hstep.2 ((hG d.caller f).mpr ⟨d, hd, rfl, hdf⟩) hstep.1
      rw [← hcaller] at hstack
      rw [← hdf]
      exact .call d hstack hd
    exact (List.cons.inj (hstacks f hf _ _ (hsite c hc hcf) (hsite c' hc' hcf'))).1

/-- The functions taken to have one call stack have one exactly when
the entry has two callers or more (and none is taken), or no call comes
back to it and each of them is called at one site. -/
theorem oneStack_iff [DecidableEq F] (P : Program F) (G : CallGraph F) (hG : G.Of P) :
    OneStack P G ↔ ((G.incoming P.entry).length ≤ 1 → CalledOnce P G) := by
  constructor
  · rintro ⟨depth, unique, hunique, hstacks, -⟩ hentry
    apply calledOnce_of_stacks hG hentry
    intro f hf
    exact hstacks f ((visitDepthFirst_mem depth hunique f).mpr (.inr hf))
  · intro h
    by_cases hentry : (G.incoming P.entry).length ≤ 1
    · have honce := h hentry
      have hno : ¬ TransGen G.Follows P.entry P.entry := fun hcycle =>
        honce.notRecursive (hcycle.lift id fun _ _ h => CallGraph.Follows.calls h)
      obtain ⟨depth, unique, hunique⟩ := getUniqueCallstackFunctions_ends hno
      have hstacks : ∀ f ∈ unique, ∀ stack stack', P.Reaches stack f → P.Reaches stack' f →
          stack = stack' := by
        intro f hf stack stack' hs hs'
        rcases (visitDepthFirst_mem depth hunique f).mp hf with hf | hf
        · cases hf
        · exact reaches_unique hG honce hentry hf.2 hs hs'
      exact ⟨depth, unique, hunique, hstacks, fun T capture functions run hnd hrun =>
        cached_of_unique hstacks capture hnd hrun⟩
    · have hnone : ∀ f ∈ ([] : List F), ∀ stack stack', P.Reaches stack f →
          P.Reaches stack' f → stack = stack' := fun f hf => absurd hf List.not_mem_nil
      refine ⟨1, [], ?_, hnone, fun T capture functions run hnd hrun => ?_⟩
      · unfold getUniqueCallstackFunctions visitDepthFirst
        rw [if_pos (by omega)]
      · exact cached_of_unique hnone capture hnd hrun

/-- Function 0 is the entry; it calls 1 at one site and 2 at two, and 1
calls 2. -/
def sharedCallee : Program Nat where
  entry := 0
  calls := [⟨10, 0, 1⟩, ⟨11, 0, 2⟩, ⟨12, 0, 2⟩, ⟨13, 1, 2⟩]

theorem oneStack_sharedCallee : OneStack sharedCallee sharedCallee.callGraph := by
  refine (oneStack_iff sharedCallee sharedCallee.callGraph (Program.callGraph_of _)).mpr
    fun _ => ⟨?_, ?_⟩
  · intro hcycle
    obtain ⟨last, -, hcall⟩ := TransGen.tail'_iff.mp hcycle
    have hin := (sharedCallee.callGraph.mem_incoming last 0).mpr hcall
    have hnone : sharedCallee.callGraph.incoming 0 = [] := by decide
    rw [hnone] at hin
    cases hin
  · intro f hf _ c hc c' hc' hcf hcf'
    have hsites : ∀ c ∈ sharedCallee.calls, ∀ c' ∈ sharedCallee.calls, c.callee = c'.callee →
        (sharedCallee.callGraph.incoming c.callee).length ≤ 1 → c.site = c'.site := by decide
    refine hsites c hc c' hc' (by rw [hcf, hcf']) ?_
    rw [hcf]
    exact hf.incoming_le

/-- The entry calls function 1 at two sites. -/
def calledTwice : Program Nat where
  entry := 0
  calls := [⟨10, 0, 1⟩, ⟨11, 0, 1⟩]

theorem not_oneStack_calledTwice : ¬ OneStack calledTwice calledTwice.callGraph := by
  rintro ⟨depth, unique, hunique, hstacks, -⟩
  have hcall : calledTwice.callGraph.Calls 0 1 := by
    show 1 ∈ calledTwice.callGraph.outgoing 0
    decide
  have htakes : calledTwice.callGraph.Takes 0 1 := ⟨by decide, .single ⟨hcall, by decide⟩⟩
  have hmem := (visitDepthFirst_mem depth hunique 1).mpr (.inr htakes)
  have hstack : calledTwice.Reaches [10] 1 := .call ⟨10, 0, 1⟩ .entry (by decide)
  have hstack' : calledTwice.Reaches [11] 1 := .call ⟨11, 0, 1⟩ .entry (by decide)
  exact absurd (hstacks 1 hmem _ _ hstack hstack') (by decide)

end Carmot.Pass
