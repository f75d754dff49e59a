/-
What the visitor's vectors hold.

The visitor only appends, and what it appends for an instruction does
not depend on what it has (`visitInst_append`). So every vector is what
the instructions contribute to it, in their order (`visitModule_eq`),
and a fact about the entries of a module is one about the entries of a
single instruction.
-/
import Carmot.Pass.Visitor

namespace Carmot.Pass

variable {Func Block Inst Value State : Type}

-- ============================================================ contributions

namespace MyInstVisitor

/-- The vectors of two visits, one after the other. -/
def append (IV IV' : MyInstVisitor Func Inst Value) : MyInstVisitor Func Inst Value where
  returns := IV.returns ++ IV'.returns
  invokes := IV.invokes ++ IV'.invokes
  loads := IV.loads ++ IV'.loads
  stores := IV.stores ++ IV'.stores
  deallocs := IV.deallocs ++ IV'.deallocs
  allocations := IV.allocations ++ IV'.allocations
  callocs := IV.callocs ++ IV'.callocs
  reallocs := IV.reallocs ++ IV'.reallocs
  unknowns := IV.unknowns ++ IV'.unknowns
  functionAllocaMap := fun f => IV.functionAllocaMap f ++ IV'.functionAllocaMap f

theorem append_init (IV : MyInstVisitor Func Inst Value) : IV.append init = IV := by
  unfold append init
  simp only [List.append_nil]

end MyInstVisitor

open MyInstVisitor (init)

section Contributions

variable [DecidableEq Func] [DecidableEq Inst] (P : Code Func Block Inst)
  (info : ModuleInfo Func Inst Value) (sets : VisitorSets Func Inst)

omit [DecidableEq Func] [DecidableEq Inst] in
theorem collectCall_append (IV : MyInstVisitor Func Inst Value) (inst : Inst)
    (getOperand : Nat → Value) (funcName : String) (debug : Entry) :
    collectCall info IV inst getOperand funcName debug
      = IV.append (collectCall info init inst getOperand funcName debug) := by
  unfold collectCall MyInstVisitor.append init
  cases allocFunction funcName with
  | _malloc | _new | _mmap | _calloc | _realloc | _mremap | _munmap | _free | _delete =>
      simp only [List.append_nil, List.nil_append]
  | _jemalloc | _unknown =>
      dsimp only
      split <;> simp only [List.append_nil, List.nil_append]

omit [DecidableEq Inst] in
theorem visitCallInvokeInst_append (IV : MyInstVisitor Func Inst Value) (inst : Inst)
    (getCalledFunction : Option Func) (getOperand : Nat → Value) :
    visitCallInvokeInst P info IV inst getCalledFunction getOperand
      = IV.append (visitCallInvokeInst P info init inst getCalledFunction getOperand) := by
  unfold visitCallInvokeInst
  cases getCalledFunction with
  | none => exact IV.append_init.symm
  | some fp =>
      dsimp only
      split
      · exact IV.append_init.symm
      · split
        · exact IV.append_init.symm
        · split
          · exact IV.append_init.symm
          · rw [collectCall_append]
            split
            · unfold MyInstVisitor.append
              simp only [List.append_assoc]
            · rfl

/-- A visit of an instruction appends what it would append to
nothing. -/
theorem visitInst_append (IV : MyInstVisitor Func Inst Value) (inst : Inst) :
    visitInst P info sets IV inst = (visitInst P info sets init inst).map IV.append := by
  unfold visitInst
  cases info.instClass inst with
  | call getCalledFunction getOperand =>
      exact congrArg some (visitCallInvokeInst_append P info IV inst getCalledFunction getOperand)
  | load getPointerOperand =>
      dsimp only [visitLoadInst]
      split
      · simp only [Option.map_some, MyInstVisitor.append, init, List.append_nil, List.nil_append]
      · exact congrArg some IV.append_init.symm
  | store getPointerOperand valueType =>
      dsimp only [visitStoreInst]
      split
      · simp only [Option.map_some, MyInstVisitor.append, init, List.append_nil, List.nil_append]
      · exact congrArg some IV.append_init.symm
  | alloca getAllocatedType metadata =>
      dsimp only [visitAllocaInst]
      split
      · cases allocaDebug (info.getDebugLoc inst) metadata with
        | abort => rfl
        | skip => exact congrArg some IV.append_init.symm
        | entry debug =>
            simp only [Option.map_some, MyInstVisitor.append, init, List.append_nil,
              List.nil_append, Option.some_inj, MyInstVisitor.mk.injEq, true_and]
            funext f
            by_cases hf : f = P.getFunction (P.getParent inst)
            · subst hf
              rw [Function.update_self, Function.update_self]
            · rw [Function.update_of_ne hf, Function.update_of_ne hf, List.append_nil]
      · exact congrArg some IV.append_init.symm
  | ret =>
      simp only [Option.map_some, MyInstVisitor.append, init, List.append_nil, List.nil_append]
  | other => exact congrArg some IV.append_init.symm

/-- What an instruction contributes. -/
def contribution (inst : Inst) : MyInstVisitor Func Inst Value :=
  (visitInst P info sets init inst).getD init

/-- A vector, or what is in one: visits append to it. -/
def Appends {E : Type} (vector : MyInstVisitor Func Inst Value → List E) : Prop :=
  vector init = [] ∧ ∀ IV IV', vector (IV.append IV') = vector IV ++ vector IV'

theorem foldlM_visitInst {E : Type} {vector : MyInstVisitor Func Inst Value → List E}
    (hvector : Appends vector) (insts : List Inst) :
    ∀ {IV IV' : MyInstVisitor Func Inst Value},
      insts.foldlM (visitInst P info sets) IV = some IV' →
        vector IV' = vector IV ++ insts.flatMap fun inst => vector (contribution P info sets inst) := by
  induction insts with
  | nil =>
      intro IV IV' h
      rw [← Option.some_inj.mp h, List.flatMap_nil, List.append_nil]
  | cons inst insts ih =>
      intro IV IV' h
      rw [List.foldlM_cons, visitInst_append] at h
      obtain ⟨IV₁, hone, hrest⟩ := Option.bind_eq_some_iff.mp h
      obtain ⟨added, hadded, rfl⟩ := Option.map_eq_some_iff.mp hone
      have hcontribution : contribution P info sets inst = added := by
        unfold contribution
        rw [hadded]
        rfl
      rw [ih hrest, hvector.2, List.flatMap_cons, hcontribution, List.append_assoc]

/-- The vectors of a visit are what the instructions contribute, in
their order. -/
theorem visitModule_eq {IV : MyInstVisitor Func Inst Value} (hvisit : visitModule P info sets = some IV)
    {E : Type} {vector : MyInstVisitor Func Inst Value → List E} (hvector : Appends vector) :
    vector IV = P.allInsts.flatMap fun inst => vector (contribution P info sets inst) := by
  rw [foldlM_visitInst P info sets hvector P.allInsts hvisit, hvector.1, List.nil_append]

theorem mem_visitModule {IV : MyInstVisitor Func Inst Value} (hvisit : visitModule P info sets = some IV)
    {E : Type} (vector : MyInstVisitor Func Inst Value → List E) (hvector : Appends vector) {e : E} :
    e ∈ vector IV ↔ ∃ inst ∈ P.allInsts, e ∈ vector (contribution P info sets inst) := by
  rw [visitModule_eq P info sets hvisit hvector, List.mem_flatMap]

end Contributions

-- ====================================================== of one instruction

/-- The debug data of an instruction's entry. -/
def ModuleInfo.position (info : ModuleInfo Func Inst Value) (inst : Inst) : Option Entry :=
  match info.instClass inst with
  | .call _ _ => (info.getDebugLoc inst).map DILocation.debug
  | .load _ | .store _ _ => some (accessDebug (info.getDebugLoc inst))
  | .alloca _ metadata =>
      match allocaDebug (info.getDebugLoc inst) metadata with
      | .entry debug => some debug
      | .abort | .skip => none
  | .ret | .other => none

/-- An instruction that may have an entry with this debug data: a call,
if it is one, is of a library function. -/
structure ModuleInfo.Entered (P : Code Func Block Inst) (info : ModuleInfo Func Inst Value)
    (inst : Inst) (debug : Entry) : Prop where
  position : info.position inst = some debug
  library : ∀ getCalledFunction getOperand,
    info.instClass inst = .call getCalledFunction getOperand →
      ∃ fp, getCalledFunction = some fp ∧ fp ∉ P.functions

/-- A load or store. -/
def InstClass.isAccess : InstClass Func Value → Bool
  | load _ | store _ _ => true
  | call _ _ | alloca _ _ | ret | other => false

/-- All entries are for instructions with something in common. -/
structure MyInstVisitor.Entries (IV : MyInstVisitor Func Inst Value) (Q : Inst → Entry → Prop) :
    Prop where
  allocations : ∀ e ∈ IV.allocations, ∃ inst, e.entry.inst = some inst ∧ Q inst e.debug
  callocs : ∀ e ∈ IV.callocs, Q e.entry.inst e.debug
  reallocs : ∀ e ∈ IV.reallocs, Q e.entry.inst e.debug
  unknowns : ∀ e ∈ IV.unknowns, Q e.entry.inst e.debug
  stores : ∀ e ∈ IV.stores, Q e.entry.inst e.debug
  loads : ∀ e ∈ IV.loads, Q e.entry.inst e.debug

namespace MyInstVisitor.Entries

variable {IV : MyInstVisitor Func Inst Value} {Q R : Inst → Entry → Prop}

theorem mono (h : IV.Entries Q) (himp : ∀ inst debug, Q inst debug → R inst debug) :
    IV.Entries R where
  allocations e he := by
    obtain ⟨inst, heq, hQ⟩ := h.allocations e he
    exact ⟨inst, heq, himp inst _ hQ⟩
  callocs e he := himp _ _ (h.callocs e he)
  reallocs e he := himp _ _ (h.reallocs e he)
  unknowns e he := himp _ _ (h.unknowns e he)
  stores e he := himp _ _ (h.stores e he)
  loads e he := himp _ _ (h.loads e he)

theorem of_init : (init : MyInstVisitor Func Inst Value).Entries Q := by
  constructor <;> exact fun e he => absurd he List.not_mem_nil

end MyInstVisitor.Entries

/-- The switch makes an entry of the call. -/
theorem collectCall_entries (info : ModuleInfo Func Inst Value) (inst : Inst)
    (getOperand : Nat → Value) (funcName : String) (debug : Entry) :
    (collectCall info init inst getOperand funcName debug).Entries
      fun j d => j = inst ∧ d = debug := by
  unfold collectCall
  cases allocFunction funcName with
  | _malloc | _new | _mmap | _calloc | _realloc | _mremap | _munmap | _free | _delete =>
      constructor <;> simp [init]
  | _jemalloc | _unknown =>
      dsimp only
      split <;> constructor <;> simp [init]

section OfOne

variable [DecidableEq Func] [DecidableEq Inst] {P : Code Func Block Inst}
  {info : ModuleInfo Func Inst Value} {sets : VisitorSets Func Inst} {inst : Inst}

omit [DecidableEq Inst] in
theorem visitCallInvokeInst_entries {getCalledFunction : Option Func} {getOperand : Nat → Value}
    (hclass : info.instClass inst = .call getCalledFunction getOperand) :
    (visitCallInvokeInst P info init inst getCalledFunction getOperand).Entries
      fun j d => j = inst ∧ info.Entered P j d := by
  unfold visitCallInvokeInst
  cases getCalledFunction with
  | none => exact .of_init
  | some fp =>
      dsimp only
      split
      · exact .of_init
      · next hfp =>
          split
          · exact .of_init
          · split
            · exact .of_init
            · next debugInfo hdebug =>
                have hentered : info.Entered P inst debugInfo.debug := by
                  refine ⟨?_, ?_⟩
                  · unfold ModuleInfo.position
                    rw [hclass, hdebug]
                    rfl
                  · intro called operand heq
                    rw [hclass] at heq
                    injection heq with heq
                    exact ⟨fp, heq.symm, hfp⟩
                have hentries := (collectCall_entries info inst getOperand (info.getName fp)
                  debugInfo.debug).mono (R := fun j d => j = inst ∧ info.Entered P j d)
                  (by rintro j d ⟨rfl, rfl⟩; exact ⟨rfl, hentered⟩)
                split
                · exact ⟨hentries.1, hentries.2, hentries.3, hentries.4, hentries.5, hentries.6⟩
                · exact hentries

/-- The entries an instruction contributes are its own. -/
theorem contribution_entries (P : Code Func Block Inst) (info : ModuleInfo Func Inst Value)
    (sets : VisitorSets Func Inst) (inst : Inst) :
    (contribution P info sets inst).Entries fun j d => j = inst ∧ info.Entered P j d := by
  have hentered : ∀ {debug : Entry}, info.position inst = some debug →
      (∀ called operand, info.instClass inst ≠ .call called operand) →
      info.Entered P inst debug :=
    fun hposition hclass => ⟨hposition, fun called operand h => absurd h (hclass called operand)⟩
  unfold contribution visitInst
  cases hclass : info.instClass inst with
  | call getCalledFunction getOperand => exact visitCallInvokeInst_entries hclass
  | load getPointerOperand =>
      have hmine : info.Entered P inst (accessDebug (info.getDebugLoc inst)) :=
        hentered (by unfold ModuleInfo.position; rw [hclass])
          (by rw [hclass]; exact fun _ _ h => nomatch h)
      dsimp only [visitLoadInst]
      split
      · constructor <;> simp [init, hmine]
      · exact .of_init
  | store getPointerOperand valueType =>
      have hmine : info.Entered P inst (accessDebug (info.getDebugLoc inst)) :=
        hentered (by unfold ModuleInfo.position; rw [hclass])
          (by rw [hclass]; exact fun _ _ h => nomatch h)
      dsimp only [visitStoreInst]
      split
      · constructor <;> simp [init, hmine]
      · exact .of_init
  | alloca getAllocatedType metadata =>
      dsimp only [visitAllocaInst]
      split
      · cases hdebug : allocaDebug (info.getDebugLoc inst) metadata with
        | abort | skip => exact .of_init
        | entry debug =>
            have hmine : info.Entered P inst debug :=
              hentered (by unfold ModuleInfo.position; rw [hclass]; dsimp only; rw [hdebug])
                (by rw [hclass]; exact fun _ _ h => nomatch h)
            constructor <;> simp [init, hmine]
      · exact .of_init
  | ret => constructor <;> exact fun e he => absurd he List.not_mem_nil
  | other => exact .of_init

/-- The entry of a load or store. -/
def ModuleInfo.access (info : ModuleInfo Func Inst Value) (inst : Inst) :
    Option (Collected (AccessEntry Inst Value)) :=
  match info.instClass inst with
  | .load getPointerOperand =>
      some ⟨⟨inst, getPointerOperand, .load, 0⟩, accessDebug (info.getDebugLoc inst)⟩
  | .store getPointerOperand valueType =>
      some ⟨⟨inst, getPointerOperand,
        .store valueType.primitiveSizeInBytes valueType.typeSizeInBytes, 0⟩,
          accessDebug (info.getDebugLoc inst)⟩
  | .call _ _ | .alloca _ _ | .ret | .other => none

omit [DecidableEq Inst] in
theorem visitCallInvokeInst_accesses (P : Code Func Block Inst) (info : ModuleInfo Func Inst Value)
    (inst : Inst) (getCalledFunction : Option Func) (getOperand : Nat → Value) :
    (visitCallInvokeInst P info init inst getCalledFunction getOperand).stores = []
      ∧ (visitCallInvokeInst P info init inst getCalledFunction getOperand).loads = [] := by
  have hcollect : ∀ (funcName : String) (debug : Entry),
      (collectCall info init inst getOperand funcName debug).stores = []
        ∧ (collectCall info init inst getOperand funcName debug).loads = [] := by
    intro funcName debug
    unfold collectCall
    cases allocFunction funcName with
    | _malloc | _new | _mmap | _calloc | _realloc | _mremap | _munmap | _free | _delete =>
        exact ⟨rfl, rfl⟩
    | _jemalloc | _unknown =>
        dsimp only
        split <;> exact ⟨rfl, rfl⟩
  unfold visitCallInvokeInst
  cases getCalledFunction with
  | none => exact ⟨rfl, rfl⟩
  | some fp =>
      dsimp only
      split
      · exact ⟨rfl, rfl⟩
      · split
        · exact ⟨rfl, rfl⟩
        · split
          · exact ⟨rfl, rfl⟩
          · split <;> exact hcollect _ _

/-- A load or store of the functions has an entry if it is not to be
skipped. -/
theorem contribution_accesses :
    (contribution P info sets inst).stores ++ (contribution P info sets inst).loads
      = if sets.visits P inst then (info.access inst).toList else [] := by
  unfold contribution visitInst ModuleInfo.access
  cases info.instClass inst with
  | call getCalledFunction getOperand =>
      obtain ⟨hstores, hloads⟩ :=
        visitCallInvokeInst_accesses P info inst getCalledFunction getOperand
      show (visitCallInvokeInst P info init inst getCalledFunction getOperand).stores
        ++ (visitCallInvokeInst P info init inst getCalledFunction getOperand).loads = _
      rw [hstores, hloads]
      split <;> rfl
  | load getPointerOperand =>
      dsimp only [visitLoadInst]
      split <;> rfl
  | store getPointerOperand valueType =>
      dsimp only [visitStoreInst]
      split <;> rfl
  | alloca getAllocatedType metadata =>
      dsimp only [visitAllocaInst]
      split
      · split <;> exact (ite_self _).symm
      · exact (ite_self _).symm
  | ret | other => exact (ite_self _).symm

/-- A stack variable of the functions has an entry if it has debug
data. -/
theorem contribution_alloca {getAllocatedType : VarType} {metadata : AllocaMetadata}
    {debug : Entry} (hclass : info.instClass inst = .alloca getAllocatedType metadata)
    (hfunction : P.getFunction (P.getParent inst) ∈ sets.functionsToInstrumentAllocaInst)
    (hdebug : allocaDebug (info.getDebugLoc inst) metadata = .entry debug) :
    (contribution P info sets inst).allocations
      = [⟨⟨some inst, info.value inst, .static (visitAllocaInstSize getAllocatedType), 0⟩,
          debug⟩] := by
  unfold contribution visitInst
  rw [hclass]
  dsimp only [visitAllocaInst]
  rw [if_pos hfunction, hdebug]
  rfl

/-- A call that ends an object. -/
def ModuleInfo.IsDealloc (P : Code Func Block Inst) (info : ModuleInfo Func Inst Value)
    (inst : Inst) : Prop :=
  ∃ fp getOperand, info.instClass inst = .call (some fp) getOperand ∧ fp ∉ P.functions
    ∧ allocFunction (info.getName fp) ∈ [._munmap, ._free, ._delete]

theorem contribution_deallocs :
    ∀ d ∈ (contribution P info sets inst).deallocs, d.1 = inst ∧ info.IsDealloc P inst := by
  unfold contribution visitInst
  cases hclass : info.instClass inst with
  | call getCalledFunction getOperand =>
      dsimp only [Option.getD_some]
      unfold visitCallInvokeInst
      cases getCalledFunction with
      | none => exact fun d hd => absurd hd List.not_mem_nil
      | some fp =>
          dsimp only
          split
          · exact fun d hd => absurd hd List.not_mem_nil
          · next hfp =>
              split
              · exact fun d hd => absurd hd List.not_mem_nil
              · split
                · exact fun d hd => absurd hd List.not_mem_nil
                · next debugInfo hdebug =>
                    have hcollect : ∀ d ∈ (collectCall info init inst getOperand (info.getName fp)
                        debugInfo.debug).deallocs, d.1 = inst ∧ info.IsDealloc P inst := by
                      intro d hd
                      unfold collectCall at hd
                      cases hname : allocFunction (info.getName fp) with
                      | _munmap | _free | _delete =>
                          rw [hname] at hd
                          rw [List.mem_singleton.mp hd]
                          exact ⟨rfl, fp, getOperand, hclass, hfp, by rw [hname]; decide⟩
                      | _malloc | _new | _mmap | _calloc | _realloc | _mremap =>
                          rw [hname] at hd
                          cases hd
                      | _jemalloc | _unknown =>
                          rw [hname] at hd
                          dsimp only at hd
                          split at hd <;> cases hd
                    split <;> exact hcollect
  | load getPointerOperand =>
      dsimp only [visitLoadInst]
      split <;> exact fun d hd => absurd hd List.not_mem_nil
  | store getPointerOperand valueType =>
      dsimp only [visitStoreInst]
      split <;> exact fun d hd => absurd hd List.not_mem_nil
  | alloca getAllocatedType metadata =>
      dsimp only [visitAllocaInst]
      split
      · split <;> exact fun d hd => absurd hd List.not_mem_nil
      · exact fun d hd => absurd hd List.not_mem_nil
  | ret => exact fun d hd => absurd hd List.not_mem_nil
  | other => exact fun d hd => absurd hd List.not_mem_nil

end OfOne

end Carmot.Pass
