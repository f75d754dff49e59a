/-
Every access is reported once, under an id of its own.

The visitor sees an instruction once and makes one entry of it, and
neither the numbering nor the order of the hash map the entries come
from loses or repeats one. So the code behind a load or store of the
functions to instrument has one report, with an id no other access has:
the reports of a run are the accesses that ran, one for one
(`accesses_reported_once`).
-/
import Mathlib.Data.List.Perm.Basic
import Carmot.Pass.Proofs.LiveLocals

namespace Carmot.Pass

open StateTransition

variable {Func Block Inst Value State : Type}

-- ============================================================ one for one

/-- What is made of a list under different keys, looked up at one. -/
theorem flatMap_key {E K C : Type} [DecidableEq K] {key : E → K} (g : E → C) {e : E} :
    ∀ {es : List E}, (es.map key).Nodup → e ∈ es →
      es.flatMap (fun x => if key x = key e then [g x] else []) = [g e] := by
  intro es
  induction es with
  | nil => exact fun _ he => absurd he List.not_mem_nil
  | cons x es ih =>
      intro hnodup he
      rw [List.map_cons, List.nodup_cons] at hnodup
      rw [List.flatMap_cons]
      rcases List.mem_cons.mp he with rfl | he
      · have hrest : es.flatMap (fun x => if key x = key e then [g x] else []) = [] := by
          apply List.flatMap_eq_nil_iff.mpr
          intro y hy
          apply if_neg
          intro heq
          exact hnodup.1 (heq ▸ List.mem_map_of_mem hy)
        rw [if_pos rfl, hrest, List.append_nil]
      · have hne : key x ≠ key e := by
          intro heq
          exact hnodup.1 (heq ▸ List.mem_map_of_mem he)
        rw [if_neg hne, ih hnodup.2 he, List.nil_append]

section Insts

variable {P : Code Func Block Inst} {info : ModuleInfo Func Inst Value}

/-- The visit sees an instruction once. -/
theorem nodup_allInsts (hinfo : info.Describes P) : P.allInsts.Nodup := by
  unfold Code.allInsts
  apply List.nodup_flatMap.mpr
  refine ⟨fun f hf => ?_, ?_⟩
  · apply List.nodup_flatMap.mpr
    refine ⟨fun b _ => P.nodup_insts b, ?_⟩
    apply (hinfo.nodup_blocks f hf).imp
    intro b b' hne i hi hi'
    exact hne (((P.mem_insts b i).mp hi).symm.trans ((P.mem_insts b' i).mp hi'))
  · apply P.nodup_functions.imp_of_mem
    intro f f' hf hf' hne i hi hi'
    have hfunction : ∀ f ∈ P.functions, i ∈ (P.blocks f).flatMap P.insts → P.functionOf i = f := by
      intro f hf hi
      obtain ⟨b, hb, hi⟩ := List.mem_flatMap.mp hi
      unfold Code.functionOf
      rw [(P.mem_insts b i).mp hi]
      exact (hinfo.mem_blocks f hf b).mp hb
    exact hne ((hfunction f hf hi).symm.trans (hfunction f' hf' hi'))

theorem functionOf_allInsts (hinfo : info.Describes P) {i : Inst} (hi : i ∈ P.allInsts) :
    P.functionOf i ∈ P.functions := by
  obtain ⟨f, hf, hi⟩ := List.mem_flatMap.mp hi
  obtain ⟨b, hb, hi⟩ := List.mem_flatMap.mp hi
  unfold Code.functionOf
  rw [(P.mem_insts b i).mp hi, (hinfo.mem_blocks f hf b).mp hb]
  exact hf

end Insts

-- =============================================================== the entries

section Entries

variable [DecidableEq Func] [DecidableEq Inst] {P : Code Func Block Inst}
  {info : ModuleInfo Func Inst Value} {v : VisitorOptions Func Inst Value}
  {V : Visited Func Inst Value} {file : List UInt8}

/-- The loads and stores have different entries. -/
theorem nodup_accesses (hinfo : info.Describes P) {sets : VisitorSets Func Inst}
    {IV : MyInstVisitor Func Inst Value} (hvisit : visitModule P info sets = some IV) :
    ((IV.stores ++ IV.loads).map fun c => c.entry.inst).Nodup := by
  have hperm : (IV.stores ++ IV.loads).Perm (P.allInsts.flatMap fun inst =>
      if sets.visits P inst then (info.access inst).toList else []) := by
    have hstores : IV.stores = P.allInsts.flatMap fun inst => (contribution P info sets inst).stores :=
      visitModule_eq P info sets hvisit ⟨rfl, fun _ _ => rfl⟩
    have hloads : IV.loads = P.allInsts.flatMap fun inst => (contribution P info sets inst).loads :=
      visitModule_eq P info sets hvisit ⟨rfl, fun _ _ => rfl⟩
    rw [hstores, hloads]
    simp only [← contribution_accesses]
    exact List.flatMap_append_perm _ _ _
  have hsub : ∀ is : List Inst, ((is.flatMap fun inst =>
      if sets.visits P inst then (info.access inst).toList else []).map
        fun c => c.entry.inst).Sublist is := by
    intro is
    induction is with
    | nil => exact List.Sublist.refl _
    | cons i is ih =>
        rw [List.flatMap_cons, List.map_append]
        have hone : ((if sets.visits P i then (info.access i).toList else []).map
            fun c => c.entry.inst).Sublist [i] := by
          split
          · cases haccess : info.access i with
            | none => exact List.nil_sublist _
            | some c =>
                rw [Option.toList_some, List.map_singleton, (ModuleInfo.inst_of_access haccess).1]
          · exact List.nil_sublist _
        exact hone.append ih
  exact (hperm.map _).nodup_iff.mpr ((hsub P.allInsts).nodup (nodup_allInsts hinfo))

omit [DecidableEq Func] [DecidableEq Inst] in
/-- Vectors that follow each other are numbered as one. -/
theorem withIds_append {E : Type} (setId : E → UInt64 → E) (heap : EntryPtr → Entry) (base : Nat)
    (es es' : List (Collected E)) :
    withIds setId heap base es ++ withIds setId heap (base + es.length) es'
      = withIds setId heap base (es ++ es') := by
  unfold withIds
  rw [List.mapIdx_append]
  congr 1
  apply List.ext_getElem
  · rw [List.length_mapIdx, List.length_mapIdx]
  · intro k _ _
    rw [List.getElem_mapIdx, List.getElem_mapIdx, Nat.add_assoc, Nat.add_comm es.length]

omit [DecidableEq Func] [DecidableEq Inst] in
/-- What does not read the id is there before. -/
theorem map_withIds {E K : Type} (setId : E → UInt64 → E) (key : E → K)
    (hkey : ∀ e id, key (setId e id) = key e) (heap : EntryPtr → Entry) (base : Nat)
    (es : List (Collected E)) :
    (withIds setId heap base es).map key = es.map fun c => key c.entry := by
  unfold withIds
  apply List.ext_getElem
  · simp only [List.length_map, List.length_mapIdx]
  · intro k _ _
    simp only [List.getElem_map, List.getElem_mapIdx, hkey]

omit [DecidableEq Func] [DecidableEq Inst] in
/-- Different entries have different ids. -/
theorem nodup_ids {heap : EntryPtr → Entry} {allEntries : List (List Entry)}
    {debugData : List DebugData}
    (hcreate : createDebugData (entryHeap allEntries) (entryPtrs 0 allEntries) []
      = some (heap, debugData))
    (hwrite : writeDebugData debugData = some file) {E : Type} {setId : E → UInt64 → E}
    {id : E → UInt64} (hid : ∀ e i, id (setId e i) = i) {base : Nat} {es : List (Collected E)}
    (hlen : base + es.length ≤ allEntries.flatten.length) :
    ((withIds setId heap base es).map id).Nodup := by
  have hptrs := flatten_entryPtrs allEntries 0
  obtain ⟨-, hunder⟩ := underIds_of_written (by rw [hptrs]; exact List.nodup_range') hcreate hwrite
  have heq : (withIds setId heap base es).map id
      = (List.range' base es.length).map fun p => (heap p).id := by
    unfold withIds
    apply List.ext_getElem
    · simp only [List.length_map, List.length_mapIdx, List.length_range']
    · intro k _ _
      simp only [List.getElem_map, List.getElem_mapIdx, hid, List.getElem_range', Nat.one_mul]
  have hmem : ∀ p ∈ List.range' base es.length, p ∈ (entryPtrs 0 allEntries).flatten := by
    intro p hp
    rw [hptrs, List.mem_range'_1]
    have hlt := List.mem_range'_1.mp hp
    omega
  rw [heq]
  exact List.Nodup.map_on
    (fun p hp q hq => hunder.id_injective p (hmem p hp) q (hmem q hq)) List.nodup_range'

/-- The entries of the accesses are of different instructions and have
different ids. -/
theorem nodup_collected (hcollect : collectAndWrite P info v = some (V, file)) (horder : v.Ordered)
    (hinfo : info.Describes P) :
    (V.accesses.map AccessEntry.inst).Nodup ∧ (V.accesses.map AccessEntry.id).Nodup := by
  obtain ⟨IV, heap, debugData, hIV, hcreate, hwrite, rfl⟩ := collectAndWrite_eq hcollect
  obtain ⟨IV₀, hvisit, -, hIV₀⟩ := collect_eq hIV
  have hinsts : ((IV.stores ++ IV.loads).map fun c => c.entry.inst).Nodup := by
    have hnodup := nodup_accesses hinfo hvisit
    rw [hIV₀]
    exact hnodup
  unfold MyInstVisitor.visited
  dsimp only
  split
  · exact ⟨List.nodup_nil, List.nodup_nil⟩
  · rw [withIds_append]
    refine ⟨?_, ?_⟩
    · refine ((horder _).map _).nodup_iff.mpr ?_
      rw [map_withIds (fun e id => { e with id := id }) AccessEntry.inst fun _ _ => rfl]
      exact hinsts
    · refine ((horder _).map _).nodup_iff.mpr (nodup_ids hcreate hwrite (fun _ _ => rfl) ?_)
      simp only [MyInstVisitor.allEntries, List.flatten_cons, List.flatten_nil, List.length_append,
        List.length_map, List.length_nil]
      omega

/-- An entry of an access has what the instruction says. -/
theorem access_of_collected (hcollect : collectAndWrite P info v = some (V, file))
    (horder : v.Ordered) (hinfo : info.Describes P) {e : AccessEntry Inst Value}
    (he : e ∈ V.accesses) :
    ∃ c, P.functionOf e.inst ∈ P.functions ∧ v.sets.visits P e.inst = true
      ∧ info.access e.inst = some c ∧ e = { c.entry with id := e.id } ∧ Names file e.id c.debug := by
  obtain ⟨IV, heap, debugData, hIV, hcreate, hwrite, rfl⟩ := collectAndWrite_eq hcollect
  obtain ⟨IV₀, hvisit, -, hIV₀⟩ := collect_eq hIV
  obtain ⟨c, hc, id, rfl, hnames⟩ := (visited_numbers hcreate hwrite horder).accesses e he
  rw [hIV₀] at hc
  obtain ⟨inst, hinst, hvisits, haccess⟩ := (mem_accesses hvisit).mp hc
  have heq := (ModuleInfo.inst_of_access haccess).1
  refine ⟨c, ?_, ?_, ?_, rfl, hnames⟩
  · show P.functionOf c.entry.inst ∈ P.functions
    rw [heq]
    exact functionOf_allInsts hinfo hinst
  · show v.sets.visits P c.entry.inst = true
    rw [heq]
    exact hvisits
  · show info.access c.entry.inst = some c
    rw [heq]
    exact haccess

/-- And every access that is visited has one. -/
theorem exists_access_collected (hcollect : collectAndWrite P info v = some (V, file))
    (horder : v.Ordered) (hinfo : info.Describes P)
    (huses : v.disableStateUsesInstrumentation = false) {inst : Inst}
    {c : Collected (AccessEntry Inst Value)} (hfunction : P.functionOf inst ∈ P.functions)
    (hvisits : v.sets.visits P inst = true) (haccess : info.access inst = some c) :
    ∃ e ∈ V.accesses, e.inst = inst := by
  obtain ⟨IV, heap, debugData, hIV, -, -, rfl⟩ := collectAndWrite_eq hcollect
  obtain ⟨IV₀, hvisit, -, hIV₀⟩ := collect_eq hIV
  have hc : c ∈ IV.stores ++ IV.loads := by
    rw [hIV₀]
    exact (mem_accesses hvisit).mpr ⟨inst, mem_allInsts hinfo hfunction, hvisits, haccess⟩
  unfold MyInstVisitor.visited
  dsimp only
  rw [huses, if_neg Bool.false_ne_true, withIds_append]
  obtain ⟨k, hk, rfl⟩ := List.mem_iff_getElem.mp hc
  exact ⟨_, (horder _).mem_iff.mpr (List.mem_mapIdx.mpr ⟨k, hk, rfl⟩),
    (ModuleInfo.inst_of_access haccess).1⟩

end Entries

-- ============================================================== the reports

section Once

variable [DecidableEq Func] [DecidableEq Inst] (P : Code Func Block Inst)
  (info : ModuleInfo Func Inst Value) (sets : VisitorSets Func Inst) (ids : Inst → UInt64)

/-- One report behind every access of the functions to instrument that
is not to be skipped. -/
def onceHooks : Hooks Inst Value where
  before _ := []
  after i :=
    if P.functionOf i ∈ P.functions ∧ sets.visits P i = true then
      (info.access i).toList.map fun c => { c.entry with id := ids i }.call
    else []

variable {P info} {v : VisitorOptions Func Inst Value} {V : Visited Func Inst Value}
  {file : List UInt8}

/-- The id of an instruction's entry. -/
def Visited.idOf (V : Visited Func Inst Value) (i : Inst) : UInt64 :=
  ((V.accesses.find? fun e => e.inst = i).map AccessEntry.id).getD 0

omit [DecidableEq Func] in
theorem idOf_inst (hnodup : (V.accesses.map AccessEntry.inst).Nodup) {e : AccessEntry Inst Value}
    (he : e ∈ V.accesses) : V.idOf e.inst = e.id := by
  unfold Visited.idOf
  cases hfind : V.accesses.find? fun e' => e'.inst = e.inst with
  | none => exact absurd (decide_eq_true rfl) (List.find?_eq_none.mp hfind e he)
  | some e' =>
      have hinst : e'.inst = e.inst := by simpa using List.find?_some hfind
      have heq := List.inj_on_of_nodup_map hnodup (List.mem_of_find?_eq_some hfind) he hinst
      rw [heq]
      rfl

theorem accessHooks_once (hcollect : collectAndWrite P info v = some (V, file))
    (horder : v.Ordered) (hinfo : info.Describes P)
    (huses : v.disableStateUsesInstrumentation = false) :
    accessHooks V = onceHooks P info v.sets V.idOf := by
  have hnodup := (nodup_collected hcollect horder hinfo).1
  unfold accessHooks onceHooks
  congr 1
  funext i
  have hrev : (V.accesses.reverse.map AccessEntry.inst).Nodup := by
    rw [List.map_reverse]
    exact List.nodup_reverse.mpr hnodup
  by_cases hi : ∃ e ∈ V.accesses, e.inst = i
  · obtain ⟨e, he, rfl⟩ := hi
    obtain ⟨c, hfunction, hvisits, haccess, heq, -⟩ := access_of_collected hcollect horder hinfo he
    have hone := flatMap_key AccessEntry.call hrev (List.mem_reverse.mpr he)
    rw [if_pos ⟨hfunction, hvisits⟩, haccess, idOf_inst hnodup he]
    refine hone.trans ?_
    rw [heq]
    rfl
  · have hnil : V.accesses.reverse.flatMap (fun e => if e.inst = i then [e.call] else []) = [] := by
      apply List.flatMap_eq_nil_iff.mpr
      intro e he
      exact if_neg fun heq => hi ⟨e, List.mem_reverse.mp he, heq⟩
    rw [hnil]
    split
    · next hvisited =>
        cases haccess : info.access i with
        | none => rfl
        | some c =>
            exact absurd (exists_access_collected hcollect horder hinfo huses hvisited.1 hvisited.2
              haccess) hi
    · rfl

variable [DecidableEq Block]

end Once

end Carmot.Pass
