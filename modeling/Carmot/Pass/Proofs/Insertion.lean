/-
What the pass leaves of a module: the program's own code, with what it
inserted around it.

Every instrumentation is a list of edits (`Edit`), each at a place of
the program. An edit of the blocks is the same edit of the hooks
(`apply_weave`): the phis and pads of a block never get any, and nothing
comes behind a terminator, so the first insertion point and the back of
a block stay where they were. The instrumented module is then the
program woven with the hooks of all the edits
(`instrumentModule_weave`).
-/
import Carmot.Pass.Proofs.Weaving

namespace Carmot.Pass

variable {Func Block Inst Value State : Type}

-- ================================================================== splice

theorem spliceAt_append {α : Type} (insts : List α) (before : Bool) (is : α → Bool) {j : α}
    (hj : is j = true) (js₂ : List α) : ∀ {js₁ : List α}, (∀ x ∈ js₁, is x = false) →
      spliceAt insts before is (js₁ ++ j :: js₂)
        = js₁ ++ if before then insts ++ j :: js₂ else j :: (insts ++ js₂)
  | [], _ => by
      rw [List.nil_append, List.nil_append, spliceAt, if_pos hj]
  | x :: js₁, hnot => by
      have hx : is x = false := hnot x (List.mem_cons_self ..)
      rw [List.cons_append, spliceAt, if_neg (by rw [hx]; exact Bool.false_ne_true),
        spliceAt_append insts before is hj js₂ fun y hy => hnot y (List.mem_cons_of_mem _ hy)]
      rfl

/-- An instruction that is picked stays in front of what follows. -/
theorem spliceAt_map_added (insts as : List (Added Value)) (tail : List (Instr Inst Value))
    (has : as.any Added.isCallstack = true) :
    spliceAt (insts.map .added) false Instr.isCallstack (as.map .added ++ tail)
      = (spliceAt insts false Added.isCallstack as).map .added ++ tail := by
  induction as with
  | nil => cases has
  | cons a as ih =>
      rw [List.map_cons, List.cons_append, spliceAt, spliceAt]
      show (if a.isCallstack = true then _ else _) = _
      by_cases ha : a.isCallstack = true
      · rw [if_pos ha, if_pos ha]
        simp
      · rw [if_neg ha, if_neg ha, List.map_cons, List.cons_append]
        congr 1
        apply ih
        rw [List.any_cons, Bool.or_eq_true] at has
        exact has.resolve_left ha

theorem spliceBack_concat {α : Type} (insts js : List α) (j : α) :
    spliceBack insts (js ++ [j]) = js ++ (insts ++ [j]) := by
  unfold spliceBack
  rw [List.dropLast_concat, List.getLast?_concat, List.append_assoc]
  rfl

-- =================================================================== edits

/-- Where an edit inserts. -/
inductive Place (Func Block Inst : Type)
  | before (i : Inst)
  | after (i : Inst)
  | firstInsertionPt (b : Block)
  | front (f : Func)
  | back (b : Block)
  | behindCallstack

/-- Code and the place it goes to. -/
structure Edit (Func Block Inst Value : Type) where
  place : Place Func Block Inst
  insts : List (Added Value)

section Edits

variable [DecidableEq Inst] (P : Code Func Block Inst)

/-- The edit, on the blocks. -/
def Edit.apply [DecidableEq Block] (e : Edit Func Block Inst Value) (bc : Bitcode Block Inst Value) :
    Bitcode Block Inst Value :=
  match e.place with
  | .before i => insertInstructions P e.insts (.inst i) true bc
  | .after i => insertInstructions P e.insts (.inst i) false bc
  | .firstInsertionPt b => Function.update bc b (spliceFirst P (e.insts.map .added) (bc b))
  | .front f =>
      Function.update bc (P.entryBlock f) (e.insts.map .added ++ bc (P.entryBlock f))
  | .back b => Function.update bc b (spliceBack (e.insts.map .added) (bc b))
  | .behindCallstack => insertInstructions P e.insts .firstInstOfMain false bc

/-- The code before one instruction, changed. -/
def Hooks.updateBefore (h : Hooks Inst Value) (i : Inst)
    (f : List (Added Value) → List (Added Value)) : Hooks Inst Value :=
  { h with before := Function.update h.before i (f (h.before i)) }

/-- The edit, on the hooks. -/
def Edit.onHooks (h : Hooks Inst Value) (e : Edit Func Block Inst Value) : Hooks Inst Value :=
  match e.place with
  | .before i => h.updateBefore i (· ++ e.insts)
  | .after i => { h with after := Function.update h.after i (e.insts ++ h.after i) }
  | .firstInsertionPt b => h.updateBefore (P.firstInsertionPt b) (e.insts ++ ·)
  | .front f => h.updateBefore (P.firstInsertionPt (P.entryBlock f)) (e.insts ++ ·)
  | .back b => h.updateBefore (P.back b) (· ++ e.insts)
  | .behindCallstack =>
      h.updateBefore (P.firstInsertionPt (P.entryBlock P.main))
        (spliceAt e.insts false Added.isCallstack)

/-- No code around phis and pads, none behind terminators. -/
structure Hooks.Clean (h : Hooks Inst Value) : Prop where
  head : ∀ i, (P.flowKind i).isHead = true → h.before i = [] ∧ h.after i = []
  terminator : ∀ i, (P.flowKind i).isTerminator = true → h.after i = []

/-- The places edits may have. -/
def Edit.Allowed (h : Hooks Inst Value) (e : Edit Func Block Inst Value) : Prop :=
  match e.place with
  | .before i => (P.flowKind i).isHead = false
  | .after i => (P.flowKind i).isHead = false ∧ (P.flowKind i).isTerminator = false
  | .firstInsertionPt _ => True
  | .front f => f ∈ P.functions
  | .back _ => True
  | .behindCallstack =>
      (h.before (P.firstInsertionPt (P.entryBlock P.main))).any Added.isCallstack = true

end Edits

-- ============================================================ one block

section Blocks

variable (P : Code Func Block Inst) (h : Hooks Inst Value)

/-- A woven block of the program. -/
theorem weave_bitcode (b : Block) :
    weave h P.bitcode b = ((P.insts b).map Instr.code).flatMap (Instr.weave h) := rfl

/-- A woven block, from an instruction of it. -/
theorem weave_split {b : Block} {is₁ is₂ : List Inst} {i : Inst}
    (hb : P.insts b = is₁ ++ i :: is₂) :
    weave h P.bitcode b = (is₁.map Instr.code).flatMap (Instr.weave h)
      ++ ((h.before i).map .added ++ .code i :: ((h.after i).map .added
        ++ (is₂.map Instr.code).flatMap (Instr.weave h))) := by
  rw [weave_bitcode, hb, List.map_append, List.flatMap_append, List.map_cons, List.flatMap_cons,
    Instr.weave, List.append_assoc, List.cons_append]

theorem isCode_woven [DecidableEq Inst] {i : Inst} {is : List Inst} (hi : i ∉ is) :
    ∀ x ∈ (is.map Instr.code).flatMap (Instr.weave h), Instr.isCode i x = false := by
  intro x hx
  obtain ⟨y, hy, hx⟩ := List.mem_flatMap.mp hx
  obtain ⟨j, hj, rfl⟩ := List.mem_map.mp hy
  rw [Instr.weave, List.mem_append, List.mem_cons] at hx
  rcases hx with hx | rfl | hx
  · obtain ⟨a, -, rfl⟩ := List.mem_map.mp hx
    rfl
  · apply decide_eq_false
    rintro rfl
    exact hi hj
  · obtain ⟨a, -, rfl⟩ := List.mem_map.mp hx
    rfl

/-- The two sides of an instruction in its block. -/
theorem Code.not_mem_sides {b : Block} {is₁ is₂ : List Inst} {i : Inst}
    (hb : P.insts b = is₁ ++ i :: is₂) : i ∉ is₁ ∧ i ∉ is₂ := by
  have hnodup := P.nodup_insts b
  rw [hb, List.nodup_append] at hnodup
  obtain ⟨-, htail, hdisj⟩ := hnodup
  refine ⟨fun hi => hdisj i hi i (List.mem_cons_self ..) rfl, ?_⟩
  exact (List.nodup_cons.mp htail).1

theorem Code.exists_split (i : Inst) :
    ∃ is₁ is₂, P.insts (P.getParent i) = is₁ ++ i :: is₂ :=
  List.append_of_mem ((P.mem_insts _ i).mpr rfl)

theorem Code.entry_split {f : Func} (hf : f ∈ P.functions) :
    ∃ body, P.insts (P.entryBlock f) = [] ++ P.firstInsertionPt (P.entryBlock f) :: body := by
  obtain ⟨body, hbody⟩ := P.insts_heads (P.entryBlock f)
  rw [P.heads_entry f hf] at hbody
  exact ⟨body, hbody⟩

variable {P}

theorem Code.isHead_of_mem_heads {b : Block} {i : Inst} (hi : i ∈ P.heads b) :
    (P.flowKind i).isHead = true := by
  obtain ⟨phis, pads, heq, -, hphis, hpads⟩ := P.heads_shape b
  rw [heq] at hi
  rcases List.mem_append.mp hi with hi | hi
  · rw [hphis i hi]
    rfl
  · rw [hpads i hi]
    rfl

/-- The first insertion point stays behind the heads. -/
theorem spliceFirst_woven (insts as : List (Added Value)) {x : Inst}
    (hx : (P.flowKind x).isHead = false) (tail : List (Instr Inst Value)) (pads : List Inst)
    (hlen : pads.length ≤ 1) (hpads : ∀ i ∈ pads, P.flowKind i = .ehPad) :
    ∀ phis : List Inst, (∀ i ∈ phis, P.flowKind i = .phi) →
      spliceFirst P (insts.map .added)
          ((phis ++ pads).map .code ++ (as.map .added ++ .code x :: tail))
        = (phis ++ pads).map .code
          ++ ((insts ++ as).map .added ++ .code x :: tail) := by
  intro phis hphis
  rw [List.map_append (f := Instr.added), List.append_assoc]
  induction phis with
  | nil =>
      rw [List.nil_append]
      match pads, hlen with
      | [], _ =>
          rw [List.map_nil, List.nil_append, List.nil_append]
          cases as with
          | nil =>
              rw [List.map_nil, List.nil_append, spliceFirst]
              cases hk : P.flowKind x with
              | phi | ehPad =>
                  rw [hk] at hx
                  cases hx
              | other | invoke _ _ | ret | terminator => rfl
          | cons a as => rfl
      | [pad], _ =>
          have hk := hpads pad (List.mem_singleton.mpr rfl)
          rw [List.map_singleton, List.singleton_append, List.singleton_append, spliceFirst, hk]
  | cons i phis ih =>
      have hk := hphis i (List.mem_cons_self ..)
      rw [List.cons_append, List.map_cons, List.cons_append, spliceFirst, hk]
      show _ :: _ = _ :: _
      rw [ih fun j hj => hphis j (List.mem_cons_of_mem _ hj)]
      rfl

variable {h}

theorem Hooks.Clean.heads_woven (hclean : h.Clean P) (b : Block) :
    ((P.heads b).map Instr.code).flatMap (Instr.weave h) = (P.heads b).map Instr.code := by
  have hall : ∀ i ∈ P.heads b, (P.flowKind i).isHead = true := fun i => Code.isHead_of_mem_heads
  generalize P.heads b = is at hall ⊢
  induction is with
  | nil => rfl
  | cons i is ih =>
      obtain ⟨hbefore, hafter⟩ := hclean.head i (hall i (List.mem_cons_self ..))
      rw [List.map_cons, List.flatMap_cons, Instr.weave, hbefore, hafter,
        ih fun j hj => hall j (List.mem_cons_of_mem _ hj)]
      rfl

/-- Hooks that differ at one instruction. -/
structure Hooks.SameBut (i : Inst) (h h' : Hooks Inst Value) : Prop where
  before : ∀ j, j ≠ i → h'.before j = h.before j
  after : ∀ j, j ≠ i → h'.after j = h.after j

namespace Hooks.SameBut

variable {i : Inst} {h' : Hooks Inst Value} (hsame : Hooks.SameBut i h h')

include hsame

theorem flatMap_weave {is : List Inst} (hi : i ∉ is) :
    (is.map Instr.code).flatMap (Instr.weave h') = (is.map Instr.code).flatMap (Instr.weave h) := by
  apply List.flatMap_congr
  intro x hx
  obtain ⟨j, hj, rfl⟩ := List.mem_map.mp hx
  have hne : j ≠ i := by
    rintro rfl
    exact hi hj
  rw [Instr.weave, Instr.weave, hsame.before j hne, hsame.after j hne]

/-- One block changes. -/
theorem weave_eq [DecidableEq Block] {b : Block} {is₁ is₂ : List Inst}
    (hb : P.insts b = is₁ ++ i :: is₂) :
    weave h' P.bitcode = Function.update (weave h P.bitcode) b
      ((is₁.map Instr.code).flatMap (Instr.weave h)
        ++ ((h'.before i).map .added ++ .code i :: ((h'.after i).map .added
          ++ (is₂.map Instr.code).flatMap (Instr.weave h)))) := by
  funext b'
  by_cases heq : b' = b
  · subst heq
    rw [Function.update_self, weave_split P h' hb, hsame.flatMap_weave (P.not_mem_sides hb).1,
      hsame.flatMap_weave (P.not_mem_sides hb).2]
  · rw [Function.update_of_ne heq, weave_bitcode, weave_bitcode]
    apply hsame.flatMap_weave
    intro hi
    have hmem : i ∈ P.insts b := by
      rw [hb]
      exact List.mem_append_right _ (List.mem_cons_self ..)
    exact heq (((P.mem_insts b' i).mp hi).symm.trans ((P.mem_insts b i).mp hmem))

end Hooks.SameBut

end Blocks

section Apply

variable [DecidableEq Inst] {P : Code Func Block Inst} {h : Hooks Inst Value}

theorem Hooks.sameBut_updateBefore (h : Hooks Inst Value) (i : Inst)
    (f : List (Added Value) → List (Added Value)) : Hooks.SameBut i h (h.updateBefore i f) :=
  ⟨fun _ hj => Function.update_of_ne hj .., fun _ _ => rfl⟩

theorem Hooks.updateBefore_self (h : Hooks Inst Value) (i : Inst)
    (f : List (Added Value) → List (Added Value)) :
    (h.updateBefore i f).before i = f (h.before i) := Function.update_self ..

/-- An edit of the woven program is an edit of the hooks. -/
theorem apply_weave [DecidableEq Block] (hclean : h.Clean P) {e : Edit Func Block Inst Value} (he : e.Allowed P h) :
    e.apply P (weave h P.bitcode) = weave (Edit.onHooks P h e) P.bitcode := by
  obtain ⟨place, insts⟩ := e
  cases place with
  | before i =>
      obtain ⟨is₁, is₂, hb⟩ := P.exists_split i
      refine Eq.trans ?_ ((h.sameBut_updateBefore i (· ++ insts)).weave_eq hb).symm
      show Function.update _ _ _ = _
      congr 1
      rw [weave_split P h hb, ← List.append_assoc, spliceAt_append]
      · rw [h.updateBefore_self, List.map_append]
        simp only [List.append_assoc, if_true]
        rfl
      · exact decide_eq_true rfl
      · intro x hx
        rcases List.mem_append.mp hx with hx | hx
        · exact isCode_woven h (P.not_mem_sides hb).1 x hx
        · obtain ⟨a, -, rfl⟩ := List.mem_map.mp hx
          rfl
  | after i =>
      obtain ⟨is₁, is₂, hb⟩ := P.exists_split i
      have hsame : Hooks.SameBut i h (Edit.onHooks P h ⟨.after i, insts⟩) :=
        ⟨fun _ _ => rfl, fun _ hj => Function.update_of_ne hj ..⟩
      have hself : (Edit.onHooks P h ⟨.after i, insts⟩).after i = insts ++ h.after i :=
        Function.update_self ..
      refine Eq.trans ?_ (hsame.weave_eq hb).symm
      show Function.update _ _ _ = _
      congr 1
      rw [weave_split P h hb, ← List.append_assoc, spliceAt_append]
      · rw [hself, List.map_append]
        simp only [List.append_assoc, Bool.false_eq_true, if_false]
        rfl
      · exact decide_eq_true rfl
      · intro x hx
        rcases List.mem_append.mp hx with hx | hx
        · exact isCode_woven h (P.not_mem_sides hb).1 x hx
        · obtain ⟨a, -, rfl⟩ := List.mem_map.mp hx
          rfl
  | firstInsertionPt b =>
      obtain ⟨body, hb⟩ := P.insts_heads b
      refine Eq.trans ?_ ((h.sameBut_updateBefore _ (insts ++ ·)).weave_eq hb).symm
      show Function.update _ _ _ = _
      congr 1
      rw [weave_split P h hb, hclean.heads_woven, h.updateBefore_self]
      obtain ⟨phis, pads, heads, hlen, hphis, hpads⟩ := P.heads_shape b
      rw [heads]
      exact spliceFirst_woven insts _ (P.firstInsertionPt_body b) _ pads hlen hpads phis hphis
  | front f =>
      obtain ⟨body, hb⟩ := P.entry_split he
      refine Eq.trans ?_ ((h.sameBut_updateBefore _ (insts ++ ·)).weave_eq hb).symm
      show Function.update _ _ _ = _
      congr 1
      rw [weave_split P h hb, h.updateBefore_self, List.map_append, List.append_assoc]
      rfl
  | back b =>
      obtain ⟨body, hb⟩ := P.insts_back b
      refine Eq.trans ?_ ((h.sameBut_updateBefore _ (· ++ insts)).weave_eq hb).symm
      show Function.update _ _ _ = _
      congr 1
      have hafter : h.after (P.back b) = [] := hclean.terminator _ (P.back_terminator b)
      have hafter' : (h.updateBefore (P.back b) (· ++ insts)).after (P.back b) = [] := hafter
      rw [weave_split P h hb, hafter, hafter', h.updateBefore_self]
      simp only [List.map_nil, List.flatMap_nil, List.append_nil]
      rw [← List.append_assoc, spliceBack_concat, List.map_append]
      simp only [List.append_assoc]
  | behindCallstack =>
      obtain ⟨body, hb⟩ := P.entry_split P.main_mem
      refine Eq.trans ?_ ((h.sameBut_updateBefore _
        (spliceAt insts false Added.isCallstack)).weave_eq hb).symm
      show Function.update _ _ _ = _
      congr 1
      rw [weave_split P h hb, h.updateBefore_self]
      exact spliceAt_map_added insts _ _ he

/-- The places of an edit stay as they should be. -/
theorem Hooks.Clean.onHooks (hclean : h.Clean P) {e : Edit Func Block Inst Value}
    (he : e.Allowed P h) : (Edit.onHooks P h e).Clean P := by
  have hbefore : ∀ {i : Inst} {f : List (Added Value) → List (Added Value)},
      (P.flowKind i).isHead = false → (h.updateBefore i f).Clean P := by
    intro i f hi
    refine ⟨fun j hj => ?_, hclean.terminator⟩
    refine ⟨?_, (hclean.head j hj).2⟩
    rw [(h.sameBut_updateBefore i f).before j]
    · exact (hclean.head j hj).1
    · rintro rfl
      rw [hi] at hj
      cases hj
  have hback : ∀ b, (P.flowKind (P.back b)).isHead = false := by
    intro b
    have hterm := P.back_terminator b
    cases hk : P.flowKind (P.back b) <;> rw [hk] at hterm <;> first | rfl | cases hterm
  obtain ⟨place, insts⟩ := e
  cases place with
  | before i => exact @hbefore i (· ++ insts) he
  | after i =>
      have hne : ∀ {j : Inst}, j ≠ i → (Edit.onHooks P h ⟨.after i, insts⟩).after j = h.after j :=
        fun hj => Function.update_of_ne hj ..
      refine ⟨fun j hj => ⟨(hclean.head j hj).1, ?_⟩, fun j hj => ?_⟩
      · rw [hne]
        · exact (hclean.head j hj).2
        · rintro rfl
          rw [he.1] at hj
          cases hj
      · rw [hne]
        · exact hclean.terminator j hj
        · rintro rfl
          rw [he.2] at hj
          cases hj
  | firstInsertionPt b => exact hbefore (P.firstInsertionPt_body b)
  | front f => exact hbefore (P.firstInsertionPt_body _)
  | back b => exact @hbefore (P.back b) (· ++ insts) (hback b)
  | behindCallstack => exact hbefore (P.firstInsertionPt_body _)

end Apply

-- =========================================================== many edits

section Folds

variable [DecidableEq Inst] {P : Code Func Block Inst}

/-- The edits, on the hooks. -/
def applyHooks (P : Code Func Block Inst) (es : List (Edit Func Block Inst Value))
    (h : Hooks Inst Value) : Hooks Inst Value :=
  es.foldl (Edit.onHooks P) h

/-- The places an edit may have whatever was inserted before. -/
def Edit.Fits (P : Code Func Block Inst) (e : Edit Func Block Inst Value) : Prop :=
  match e.place with
  | .before i => (P.flowKind i).isHead = false
  | .after i => (P.flowKind i).isHead = false ∧ (P.flowKind i).isTerminator = false
  | .front f => f ∈ P.functions
  | .firstInsertionPt _ | .back _ | .behindCallstack => True

/-- Main captures the stack. -/
def Hooks.Captures (P : Code Func Block Inst) (h : Hooks Inst Value) : Prop :=
  (h.before (P.firstInsertionPt (P.entryBlock P.main))).any Added.isCallstack = true

theorem any_spliceAt (insts : List (Added Value)) (is : Added Value → Bool) (as : List (Added Value))
    (has : as.any Added.isCallstack = true) :
    (spliceAt insts false is as).any Added.isCallstack = true := by
  induction as with
  | nil => cases has
  | cons a as ih =>
      rw [List.any_cons, Bool.or_eq_true] at has
      rw [spliceAt]
      by_cases ha : is a = true
      · simp only [if_pos ha, Bool.false_eq_true, if_false, List.any_cons, List.any_append,
          Bool.or_eq_true]
        tauto
      · rw [if_neg ha, List.any_cons, Bool.or_eq_true]
        exact has.imp id ih

/-- An edit takes nothing away. -/
theorem Hooks.Captures.onHooks {h : Hooks Inst Value} (hcap : h.Captures P)
    (e : Edit Func Block Inst Value) : (Edit.onHooks P h e).Captures P := by
  have hbefore : ∀ {i : Inst} {f : List (Added Value) → List (Added Value)},
      (∀ as : List (Added Value), as.any Added.isCallstack = true →
        (f as).any Added.isCallstack = true) → (h.updateBefore i f).Captures P := by
    intro i f hf
    unfold Hooks.Captures
    by_cases heq : P.firstInsertionPt (P.entryBlock P.main) = i
    · rw [heq, h.updateBefore_self, ← heq]
      exact hf _ hcap
    · rw [(h.sameBut_updateBefore i f).before _ heq]
      exact hcap
  obtain ⟨place, insts⟩ := e
  have hright : ∀ as : List (Added Value), as.any Added.isCallstack = true →
      (as ++ insts).any Added.isCallstack = true := by
    intro as has
    rw [List.any_append, has]
    rfl
  have hleft : ∀ as : List (Added Value), as.any Added.isCallstack = true →
      (insts ++ as).any Added.isCallstack = true := by
    intro as has
    rw [List.any_append, has, Bool.or_true]
  cases place with
  | before i => exact hbefore hright
  | after i => exact hcap
  | firstInsertionPt b => exact hbefore hleft
  | front f => exact hbefore hleft
  | back b => exact hbefore hright
  | behindCallstack => exact hbefore (any_spliceAt insts _)

omit [DecidableEq Inst] in
theorem Edit.Fits.allowed {e : Edit Func Block Inst Value} {h : Hooks Inst Value} (he : e.Fits P)
    (hcap : e.place = .behindCallstack → h.Captures P) : e.Allowed P h := by
  obtain ⟨place, insts⟩ := e
  cases place with
  | behindCallstack => exact hcap rfl
  | before i | after i | firstInsertionPt b | front f | back b => exact he

/-- Edit after edit. -/
theorem foldl_apply_weave [DecidableEq Block] (es : List (Edit Func Block Inst Value)) :
    ∀ {h : Hooks Inst Value}, h.Clean P → (∀ e ∈ es, e.Fits P) →
      ((∃ e ∈ es, e.place = .behindCallstack) → h.Captures P) →
      es.foldl (fun bc e => e.apply P bc) (weave h P.bitcode) = weave (applyHooks P es h) P.bitcode
        ∧ (applyHooks P es h).Clean P := by
  induction es with
  | nil => exact fun hclean _ _ => ⟨rfl, hclean⟩
  | cons e es ih =>
      intro h hclean hfits hcap
      have he : e.Allowed P h := (hfits e (List.mem_cons_self ..)).allowed fun hplace =>
        hcap ⟨e, List.mem_cons_self .., hplace⟩
      rw [List.foldl_cons, apply_weave hclean he]
      apply ih (hclean.onHooks he) fun e' he' => hfits e' (List.mem_cons_of_mem _ he')
      rintro ⟨e', he', hplace⟩
      exact (hcap ⟨e', List.mem_cons_of_mem _ he', hplace⟩).onHooks e

end Folds

-- ============================================================ the module

section Module

variable (P : Code Func Block Inst)

/-- The place `insertInstructionsWithCheck` picks. -/
def checkedPlace : InsertPoint Inst → Place Func Block Inst
  | .inst i =>
      match P.flowKind i with
      | .invoke normalDest _ => .firstInsertionPt normalDest
      | kind => if kind.isTerminator then .before i else .after i
  | .firstInstOfMain => .behindCallstack

/-- The edits of `callstackInstrumentation`. -/
def callstackEdits [DecidableEq Func] (uniqueCallstackFunctions : List Func) :
    List (Edit Func Block Inst Value) :=
  P.functions.map fun f =>
    ⟨.front f, [callstackCall ((uniqueIndices uniqueCallstackFunctions 0 P.functions).lookup f)
      uniqueCallstackFunctions.length]⟩

/-- The edits of `instrumentUnkowns` for an entry. -/
def UnknownEntry.edits (e : UnknownEntry Inst) : List (Edit Func Block Inst Value) :=
  [⟨.before e.inst, [.call .pinStartTracking []]⟩,
    ⟨checkedPlace P (.inst e.inst),
      [.call .pinStopTracking [], .call .pinAdd [.const e.id, .callstackInst]]⟩]

/-- The edits of `instrumentReturns` for a return. -/
def returnEdits (functionAllocaMap : Func → List Value) (i : Inst) :
    List (Edit Func Block Inst Value) :=
  (functionAllocaMap (P.getFunction (P.getParent i))).map fun allocaInst =>
    ⟨.before i, removeInsts allocaInst⟩

/-- The edits of `instrumentInvokes` for an invoke. -/
def invokeEdits (functionAllocaMap : Func → List Value) (i : Inst) :
    List (Edit Func Block Inst Value) :=
  match P.flowKind i with
  | .invoke _ unwindDest =>
      (functionAllocaMap (P.getFunction (P.getParent i))).map fun allocaInst =>
        ⟨.back unwindDest, removeInsts allocaInst⟩
  | _ => []

/-- The edits between the call stacks and the prologue. -/
def instrumentEdits (o : InsertionOptions) (V : Visited Func Inst Value) :
    List (Edit Func Block Inst Value) :=
  (V.allocations.map fun e => ⟨checkedPlace P (e.inst.elim .firstInstOfMain .inst), e.insts⟩)
    ++ (V.callocs.map fun e => ⟨checkedPlace P (.inst e.inst), e.insts⟩)
    ++ (V.reallocs.map fun e => ⟨checkedPlace P (.inst e.inst), e.insts⟩)
    ++ (if o.disablePin then [] else V.unknowns.flatMap (UnknownEntry.edits P))
    ++ (V.accesses.map fun e => ⟨checkedPlace P (.inst e.inst), e.insts⟩)
    ++ (V.deallocs.map fun d => ⟨.after d.1, removeInsts d.2⟩)
    ++ P.returns.flatMap (returnEdits P V.functionAllocaMap)
    ++ V.invokes.flatMap (invokeEdits P V.functionAllocaMap)

/-- The edits of the prologue and the epilogue. -/
def frameEdits (o : InsertionOptions) : List (Edit Func Block Inst Value) :=
  ⟨.front P.main, [.call .memorytoolPrologue o.prologue.args]⟩
    :: P.exits.map fun i => ⟨.before i, [.call .memorytoolEpilogue []]⟩

/-- All edits, one after the other. -/
def moduleEdits [DecidableEq Func] (o : InsertionOptions) (V : Visited Func Inst Value) :
    List (Edit Func Block Inst Value) :=
  (if o.disableAllInstrumentation then []
    else callstackEdits P V.uniqueCallstackFunctions ++ instrumentEdits P o V) ++ frameEdits P o

/-- The code the instrumented module has around an instruction. -/
def moduleHooks [DecidableEq Func] [DecidableEq Inst] (o : InsertionOptions)
    (V : Visited Func Inst Value) : Hooks Inst Value :=
  applyHooks P (moduleEdits P o V) Hooks.none

section Edits

variable [DecidableEq Block] [DecidableEq Inst]

theorem insertInstructionsWithCheck_eq (insts : List (Added Value)) (p : InsertPoint Inst)
    (bc : Bitcode Block Inst Value) :
    insertInstructionsWithCheck P insts p bc = Edit.apply P ⟨checkedPlace P p, insts⟩ bc := by
  cases p with
  | firstInstOfMain => rfl
  | inst i =>
      unfold insertInstructionsWithCheck checkedPlace
      dsimp only
      cases P.flowKind i <;> rfl

theorem instrumentUnkowns_eq (es : List (UnknownEntry Inst)) (bc : Bitcode Block Inst Value) :
    instrumentUnkowns P es bc
      = (es.flatMap (UnknownEntry.edits P)).foldl (fun bc e => e.apply P bc) bc := by
  rw [List.foldl_flatMap]
  unfold instrumentUnkowns
  simp only [insertInstructionsWithCheck_eq]
  rfl

theorem instrumentReturns_eq (functionAllocaMap : Func → List Value)
    (bc : Bitcode Block Inst Value) :
    instrumentReturns P functionAllocaMap bc
      = (P.returns.flatMap (returnEdits P functionAllocaMap)).foldl
          (fun bc e => e.apply P bc) bc := by
  rw [List.foldl_flatMap]
  unfold instrumentReturns returnEdits
  simp only [List.foldl_map]
  rfl

theorem instrumentInvokes_eq (invokes : List Inst) (functionAllocaMap : Func → List Value)
    (bc : Bitcode Block Inst Value) :
    instrumentInvokes P invokes functionAllocaMap bc
      = (invokes.flatMap (invokeEdits P functionAllocaMap)).foldl
          (fun bc e => e.apply P bc) bc := by
  rw [List.foldl_flatMap]
  unfold instrumentInvokes
  congr 1
  funext bc i
  unfold invokeEdits
  cases P.flowKind i with
  | invoke normalDest unwindDest =>
      dsimp only
      rw [List.foldl_map]
      rfl
  | phi | ehPad | other | ret | terminator => rfl

theorem instrumentModule_edits [DecidableEq Func] (o : InsertionOptions)
    (V : Visited Func Inst Value) (bc : Bitcode Block Inst Value) :
    instrumentModule P o V bc = (moduleEdits P o V).foldl (fun bc e => e.apply P bc) bc := by
  have hframe : ∀ bc : Bitcode Block Inst Value,
      insertEpilogue P (setRuntimeGlobalVariables P o.prologue bc)
        = (frameEdits P o).foldl (fun bc e => e.apply P bc) bc := by
    intro bc
    unfold frameEdits insertEpilogue
    rw [List.foldl_cons, List.foldl_map]
    rfl
  unfold instrumentModule moduleEdits
  rw [List.foldl_append, ← hframe]
  by_cases hall : o.disableAllInstrumentation = true
  · simp only [if_pos hall, List.foldl_nil]
  · simp only [if_neg hall]
    unfold instrumentEdits callstackEdits
    simp only [List.foldl_append, List.foldl_map, instrumentInvokes_eq, instrumentReturns_eq]
    unfold instrumentDeallocs insertLoadsStoresRegular instrumentReallocs instrumentCallocs
      instrumentAllocations callstackInstrumentation
    simp only [insertInstructionsWithCheck_eq]
    by_cases hpin : o.disablePin = true
    · simp only [if_pos hpin, List.foldl_nil]
      rfl
    · simp only [if_neg hpin, instrumentUnkowns_eq]
      rfl

end Edits

/-- Can the visitor collect the instruction as a call or an access? -/
def FlowKind.isSite : FlowKind Block → Bool
  | .other | .invoke _ _ => true
  | .phi | .ehPad | .ret | .terminator => false

/-- What the visitor has collected is where it can be: calls, possibly
invokes, allocations on the stack, loads and stores. A deallocation is
no invoke. -/
structure Visited.Placed (V : Visited Func Inst Value) : Prop where
  allocations : ∀ e ∈ V.allocations, ∀ i ∈ e.inst, (P.flowKind i).isSite = true
  callocs : ∀ e ∈ V.callocs, (P.flowKind e.inst).isSite = true
  reallocs : ∀ e ∈ V.reallocs, (P.flowKind e.inst).isSite = true
  unknowns : ∀ e ∈ V.unknowns, (P.flowKind e.inst).isSite = true
  accesses : ∀ e ∈ V.accesses, P.flowKind e.inst = .other
  deallocs : ∀ d ∈ V.deallocs, P.flowKind d.1 = .other

section Weave

variable {P}

theorem checkedPlace_invoke {i : Inst} {normalDest unwindDest : Block}
    (hi : P.flowKind i = .invoke normalDest unwindDest) :
    checkedPlace P (.inst i) = .firstInsertionPt normalDest := by
  unfold checkedPlace
  dsimp only
  rw [hi]

theorem checkedPlace_other {i : Inst} (hi : P.flowKind i = .other) :
    checkedPlace P (.inst i) = .after i := by
  unfold checkedPlace
  dsimp only
  rw [hi]
  rfl

theorem fits_checkedPlace {i : Inst} (hi : (P.flowKind i).isSite = true)
    (insts : List (Added Value)) : Edit.Fits P ⟨checkedPlace P (.inst i), insts⟩ := by
  cases hk : P.flowKind i with
  | phi | ehPad | ret | terminator =>
      rw [hk] at hi
      cases hi
  | invoke normalDest unwindDest =>
      rw [checkedPlace_invoke hk]
      exact True.intro
  | other =>
      rw [checkedPlace_other hk]
      refine ⟨?_, ?_⟩
      · rw [hk]
        rfl
      · rw [hk]
        rfl

theorem isHead_of_isRet {i : Inst} (hi : (P.flowKind i).isRet = true) :
    (P.flowKind i).isHead = false := by
  cases hk : P.flowKind i <;> rw [hk] at hi <;> first | rfl | cases hi

theorem isRet_returns {i : Inst} (hi : i ∈ P.returns) : (P.flowKind i).isRet = true := by
  obtain ⟨f, -, hi⟩ := List.mem_flatMap.mp hi
  obtain ⟨b, -, hi⟩ := List.mem_flatMap.mp hi
  exact (List.mem_filter.mp hi).2

theorem isRet_exits {i : Inst} (hi : i ∈ P.exits) : (P.flowKind i).isRet = true := by
  obtain ⟨b, -, hi⟩ := List.mem_flatMap.mp hi
  exact (List.mem_filter.mp hi).2

theorem fits_frameEdits (o : InsertionOptions) :
    ∀ e ∈ (frameEdits P o : List (Edit Func Block Inst Value)), e.Fits P := by
  intro e he
  rcases List.mem_cons.mp he with rfl | he
  · exact P.main_mem
  · obtain ⟨i, hi, rfl⟩ := List.mem_map.mp he
    exact isHead_of_isRet (isRet_exits hi)

theorem fits_instrumentEdits (o : InsertionOptions) {V : Visited Func Inst Value}
    (hV : V.Placed P) : ∀ e ∈ instrumentEdits P o V, e.Fits P := by
  have hother : ∀ {i : Inst}, P.flowKind i = .other → (P.flowKind i).isSite = true := by
    intro i hi
    rw [hi]
    rfl
  intro e he
  unfold instrumentEdits at he
  simp only [List.mem_append, List.mem_map, List.mem_flatMap] at he
  rcases he with ((((((he | he) | he) | he) | he) | he) | he) | he
  · obtain ⟨a, ha, rfl⟩ := he
    cases hinst : a.inst with
    | none => exact True.intro
    | some i => exact fits_checkedPlace (hV.allocations a ha i hinst) _
  · obtain ⟨a, ha, rfl⟩ := he
    exact fits_checkedPlace (hV.callocs a ha) _
  · obtain ⟨a, ha, rfl⟩ := he
    exact fits_checkedPlace (hV.reallocs a ha) _
  · split at he
    · cases he
    · obtain ⟨a, ha, he⟩ := List.mem_flatMap.mp he
      rcases List.mem_cons.mp he with rfl | he
      · have hsite := hV.unknowns a ha
        show (P.flowKind a.inst).isHead = false
        cases hk : P.flowKind a.inst <;> rw [hk] at hsite <;> first | rfl | cases hsite
      · rw [List.mem_singleton.mp he]
        exact fits_checkedPlace (hV.unknowns a ha) _
  · obtain ⟨a, ha, rfl⟩ := he
    exact fits_checkedPlace (hother (hV.accesses a ha)) _
  · obtain ⟨d, hd, rfl⟩ := he
    refine ⟨?_, ?_⟩
    · rw [hV.deallocs d hd]
      rfl
    · rw [hV.deallocs d hd]
      rfl
  · obtain ⟨i, hi, he⟩ := he
    obtain ⟨allocaInst, -, rfl⟩ := List.mem_map.mp he
    exact isHead_of_isRet (isRet_returns hi)
  · obtain ⟨i, -, he⟩ := he
    unfold invokeEdits at he
    split at he
    · obtain ⟨allocaInst, -, rfl⟩ := List.mem_map.mp he
      exact True.intro
    · cases he

theorem Hooks.clean_none : (Hooks.none : Hooks Inst Value).Clean P :=
  ⟨fun _ _ => ⟨rfl, rfl⟩, fun _ _ => rfl⟩

theorem fits_callstackEdits [DecidableEq Func] (unique : List Func) :
    ∀ e ∈ (callstackEdits P unique : List (Edit Func Block Inst Value)), e.Fits P := by
  intro e he
  obtain ⟨f, hf, rfl⟩ := List.mem_map.mp he
  exact hf

variable [DecidableEq Inst]

theorem Hooks.Captures.applyHooks (es : List (Edit Func Block Inst Value)) :
    ∀ {h : Hooks Inst Value}, h.Captures P → (applyHooks P es h).Captures P := by
  induction es with
  | nil => exact fun hcap => hcap
  | cons e es ih => exact fun hcap => ih (hcap.onHooks e)

theorem callstackCall_isCallstack (index : Option Nat) (size : Nat) :
    (callstackCall index size : Added Value).isCallstack = true := by
  cases index <;> rfl

/-- The call in main stays. -/
theorem captures_callstackEdits [DecidableEq Func] (unique : List Func) (h : Hooks Inst Value) :
    (applyHooks P (callstackEdits P unique) h).Captures P := by
  obtain ⟨fs₁, fs₂, hfs⟩ := List.append_of_mem P.main_mem
  unfold callstackEdits
  generalize hcall : (fun f => (⟨.front f,
    [callstackCall ((uniqueIndices unique 0 P.functions).lookup f) unique.length]⟩ :
      Edit Func Block Inst Value)) = edit
  rw [hfs, List.map_append, List.map_cons]
  unfold Pass.applyHooks
  rw [List.foldl_append, List.foldl_cons]
  apply Hooks.Captures.applyHooks
  unfold Hooks.Captures
  rw [← hcall]
  show ((Hooks.updateBefore _ _ _).before _).any _ = true
  rw [Hooks.updateBefore_self, List.any_append, List.any_cons, callstackCall_isCallstack]
  rfl

/-- The instrumented module is the program with the edits' code woven
in, and none of it is at a place where it may not be. -/
theorem instrumentModule_weave_clean [DecidableEq Func] [DecidableEq Block] (o : InsertionOptions)
    {V : Visited Func Inst Value} (hV : V.Placed P) :
    instrumentModule P o V P.bitcode = weave (moduleHooks P o V) P.bitcode
      ∧ (moduleHooks P o V).Clean P := by
  have hframe : ∀ e ∈ (frameEdits P o : List (Edit Func Block Inst Value)),
      e.place ≠ .behindCallstack := by
    intro e he
    rcases List.mem_cons.mp he with rfl | he
    · exact fun hplace => nomatch hplace
    · obtain ⟨i, -, rfl⟩ := List.mem_map.mp he
      exact fun hplace => nomatch hplace
  rw [instrumentModule_edits]
  unfold moduleHooks moduleEdits
  nth_rewrite 1 [← weave_none P.bitcode]
  by_cases hall : o.disableAllInstrumentation = true
  · rw [if_pos hall, List.nil_append]
    refine foldl_apply_weave _ Hooks.clean_none (fits_frameEdits o) ?_
    rintro ⟨e, he, hplace⟩
    exact absurd hplace (hframe e he)
  · rw [if_neg hall, List.append_assoc]
    obtain ⟨hstart, hclean⟩ := foldl_apply_weave (callstackEdits P V.uniqueCallstackFunctions)
      Hooks.clean_none (fits_callstackEdits _) (by
        rintro ⟨e, he, hplace⟩
        obtain ⟨f, -, rfl⟩ := List.mem_map.mp he
        cases hplace)
    have hsplit : applyHooks P (callstackEdits P V.uniqueCallstackFunctions
          ++ (instrumentEdits P o V ++ frameEdits P o)) Hooks.none
        = applyHooks P (instrumentEdits P o V ++ frameEdits P o)
            (applyHooks P (callstackEdits P V.uniqueCallstackFunctions) Hooks.none) :=
      List.foldl_append
    rw [List.foldl_append, hstart, hsplit]
    refine foldl_apply_weave _ hclean ?_ fun _ => captures_callstackEdits _ _
    intro e he
    rcases List.mem_append.mp he with he | he
    · exact fits_instrumentEdits o hV e he
    · exact fits_frameEdits o e he

theorem instrumentModule_weave [DecidableEq Func] [DecidableEq Block] (o : InsertionOptions)
    {V : Visited Func Inst Value} (hV : V.Placed P) :
    instrumentModule P o V P.bitcode = weave (moduleHooks P o V) P.bitcode :=
  (instrumentModule_weave_clean o hV).1

theorem moduleHooks_clean [DecidableEq Func] [DecidableEq Block] (o : InsertionOptions)
    {V : Visited Func Inst Value} (hV : V.Placed P) : (moduleHooks P o V).Clean P :=
  (instrumentModule_weave_clean o hV).2

end Weave

end Module

end Carmot.Pass
