/-
Every report the instrumented program makes names its source.

A report carries an id, and the id is the number of a record in the
file of debug data. Two paths meet here: an entry's record and its
instrumentation are written by different halves of the pass, one into
the file and one into the module, and they come together again in the
pretty printer, long after the module has run. What is proved is that
they belong to one instruction: the one the report comes right behind,
the invoke whose normal destination begins there, or a global at the
start of main (`ids_name_positions`).
-/
import Carmot.Pass.Proofs.Accesses
import Carmot.Pass.Proofs.EntryIds

namespace Carmot.Pass

open StateTransition

variable {Func Block Inst Value State : Type}

-- ========================================================= where code comes from

section Hooks

variable [DecidableEq Inst] {P : Code Func Block Inst}

theorem mem_spliceAt {α : Type} {insts : List α} {before : Bool} {is : α → Bool} {x : α} :
    ∀ {js : List α}, x ∈ spliceAt insts before is js → x ∈ insts ∨ x ∈ js := by
  intro js
  induction js with
  | nil => exact fun h => absurd h List.not_mem_nil
  | cons j js ih =>
      intro h
      rw [spliceAt] at h
      split at h
      · split at h
        · exact List.mem_append.mp h
        · rcases List.mem_cons.mp h with rfl | h
          · exact .inr List.mem_cons_self
          · exact (List.mem_append.mp h).imp_right (List.mem_cons_of_mem j)
      · rcases List.mem_cons.mp h with rfl | h
        · exact .inr List.mem_cons_self
        · exact (ih h).imp_right (List.mem_cons_of_mem j)

/-- The places whose code comes before an instruction. -/
def Place.IsBefore (P : Code Func Block Inst) (i : Inst) : Place Func Block Inst → Prop
  | .before j => j = i
  | .firstInsertionPt b => P.firstInsertionPt b = i
  | .front f => P.firstInsertionPt (P.entryBlock f) = i
  | .back b => P.back b = i
  | .behindCallstack => P.firstInsertionPt (P.entryBlock P.main) = i
  | .after _ => False

theorem mem_updateBefore {h : Hooks Inst Value} {i j : Inst}
    {f : List (Added Value) → List (Added Value)} {insts : List (Added Value)}
    (hf : ∀ as, ∀ a ∈ f as, a ∈ as ∨ a ∈ insts) {a : Added Value}
    (ha : a ∈ (h.updateBefore j f).before i) : a ∈ h.before i ∨ j = i ∧ a ∈ insts := by
  by_cases heq : j = i
  · subst heq
    rw [h.updateBefore_self] at ha
    exact (hf _ a ha).imp_right fun h => ⟨rfl, h⟩
  · rw [(h.sameBut_updateBefore j f).before i (Ne.symm heq)] at ha
    exact .inl ha

theorem mem_before_onHooks {h : Hooks Inst Value} {e : Edit Func Block Inst Value} {i : Inst}
    {a : Added Value} (ha : a ∈ (Edit.onHooks P h e).before i) :
    a ∈ h.before i ∨ e.place.IsBefore P i ∧ a ∈ e.insts := by
  obtain ⟨place, insts⟩ := e
  have hfront : ∀ as : List (Added Value), ∀ a ∈ insts ++ as, a ∈ as ∨ a ∈ insts :=
    fun as a ha => (List.mem_append.mp ha).symm
  have hback : ∀ as : List (Added Value), ∀ a ∈ as ++ insts, a ∈ as ∨ a ∈ insts :=
    fun as a ha => List.mem_append.mp ha
  cases place with
  | before j => exact mem_updateBefore hback ha
  | back b => exact mem_updateBefore hback ha
  | firstInsertionPt b => exact mem_updateBefore hfront ha
  | front f => exact mem_updateBefore hfront ha
  | behindCallstack => exact mem_updateBefore (fun as a ha => (mem_spliceAt ha).symm) ha
  | after j => exact .inl ha

/-- Code before an instruction is of an edit that puts it there. -/
theorem mem_before_applyHooks {i : Inst} {a : Added Value} (es : List (Edit Func Block Inst Value)) :
    ∀ {h : Hooks Inst Value}, a ∈ (applyHooks P es h).before i →
      a ∈ h.before i ∨ ∃ e ∈ es, e.place.IsBefore P i ∧ a ∈ e.insts := by
  induction es with
  | nil => exact fun ha => .inl ha
  | cons e es ih =>
      intro h ha
      rcases ih ha with ha | ⟨e', he', hplace⟩
      · rcases mem_before_onHooks ha with ha | hplace
        · exact .inl ha
        · exact .inr ⟨e, List.mem_cons_self, hplace⟩
      · exact .inr ⟨e', List.mem_cons_of_mem e he', hplace⟩

theorem mem_after_moduleHooks [DecidableEq Func] {o : InsertionOptions}
    {V : Visited Func Inst Value} {i : Inst} {a : Added Value} :
    a ∈ (moduleHooks P o V).after i ↔ ∃ e ∈ moduleEdits P o V, e.place = .after i ∧ a ∈ e.insts := by
  unfold moduleHooks
  rw [after_applyHooks]
  show a ∈ _ ++ [] ↔ _
  rw [List.append_nil, List.mem_flatMap]
  apply exists_congr
  intro e
  rw [List.mem_reverse]
  apply and_congr_right
  intro _
  unfold Edit.after
  split
  · next j hplace =>
      rw [hplace]
      by_cases heq : j = i
      · rw [if_pos heq, heq]
        exact ⟨fun h => ⟨rfl, h⟩, fun h => h.2⟩
      · rw [if_neg heq]
        refine ⟨fun h => absurd h List.not_mem_nil, fun h => ?_⟩
        injection h.1 with h
        exact absurd h heq
  · next hplace => exact ⟨fun h => absurd h List.not_mem_nil, fun h => absurd h.1 (hplace i)⟩

end Hooks

-- ======================================================== calls that have ids

/-- The reports that carry an id. -/
def Callee.hasId : Callee → Bool
  | texasMalloc | texasCalloc | texasRealloc | texasAddWithInfo | texasAddWithInfoLoad | pinAdd => true
  | _ => false

section Edits

variable {P : Code Func Block Inst} {V : Visited Func Inst Value}

/-- The entry whose call it is, and the id it was given. -/
def Edit.HasPoint (P : Code Func Block Inst) (V : Visited Func Inst Value)
    (e : Edit Func Block Inst Value) (args : List (Operand Value)) : Prop :=
  ∃ q ∈ V.idPoints, e.place = checkedPlace P q.2 ∧ ∃ rest, args = .const q.1 :: rest

/-- A call that has an id is of an entry, and the capture of the stack
is its last operand. -/
theorem idCall_instrumentEdits {o : InsertionOptions} {e : Edit Func Block Inst Value}
    (he : e ∈ instrumentEdits P o V) {callee : Callee} {args : List (Operand Value)}
    (hcall : .call callee args ∈ e.insts) (hid : callee.hasId = true) :
    e.HasPoint P V args ∧ (o.disablePin = true → args.getLast? = some .callstackInst) := by
  have hpoint : ∀ {id : UInt64} {point : InsertPoint Inst} {rest : List (Operand Value)},
      (id, point) ∈ V.idPoints → e.place = checkedPlace P point → args = .const id :: rest →
      e.HasPoint P V args :=
    fun hq hplace hargs => ⟨_, hq, hplace, _, hargs⟩
  have hend : e ∉ endEdits P V := by
    intro he
    obtain ⟨address, heq⟩ := insts_endEdits e he
    rw [heq] at hcall
    simp only [removeInsts, List.mem_cons, reduceCtorEq, Added.call.injEq, List.not_mem_nil,
      or_false, false_or] at hcall
    rw [hcall.1] at hid
    cases hid
  unfold endEdits at hend
  simp only [List.mem_append, List.mem_map, List.mem_flatMap] at hend
  unfold Visited.idPoints at hpoint
  simp only [List.mem_append, List.mem_map] at hpoint
  unfold instrumentEdits at he
  simp only [List.mem_append, List.mem_map, List.mem_flatMap] at he
  rcases he with ((((((he | he) | he) | he) | he) | he) | he) | he
  · obtain ⟨a, ha, rfl⟩ := he
    simp only [AllocEntry.insts, List.mem_cons, reduceCtorEq, Added.call.injEq, List.not_mem_nil,
      or_false, false_or] at hcall
    refine ⟨hpoint (.inl (.inl (.inl (.inl ⟨a, ha, rfl⟩)))) rfl hcall.2, fun _ => ?_⟩
    rw [hcall.2]
    rfl
  · obtain ⟨a, ha, rfl⟩ := he
    simp only [CallocEntry.insts, List.mem_cons, reduceCtorEq, Added.call.injEq, List.not_mem_nil,
      or_false, false_or] at hcall
    refine ⟨hpoint (.inl (.inl (.inl (.inr ⟨a, ha, rfl⟩)))) rfl hcall.2, fun _ => ?_⟩
    rw [hcall.2]
    rfl
  · obtain ⟨a, ha, rfl⟩ := he
    simp only [ReallocEntry.insts, List.mem_cons, reduceCtorEq, Added.call.injEq, List.not_mem_nil,
      or_false, false_or] at hcall
    refine ⟨hpoint (.inl (.inl (.inr ⟨a, ha, rfl⟩))) rfl hcall.2, fun _ => ?_⟩
    rw [hcall.2]
    rfl
  · split at he
    · cases he
    · next hpin =>
      obtain ⟨a, ha, he⟩ := List.mem_flatMap.mp he
      rcases List.mem_cons.mp he with rfl | he
      · simp only [List.mem_singleton, Added.call.injEq] at hcall
        rw [hcall.1] at hid
        cases hid
      · rw [List.mem_singleton.mp he] at hcall hpoint ⊢
        simp only [List.mem_cons, Added.call.injEq, List.not_mem_nil, or_false] at hcall
        rcases hcall with hcall | hcall
        · rw [hcall.1] at hid
          cases hid
        · exact ⟨hpoint (.inl (.inr ⟨a, ha, rfl⟩)) rfl hcall.2, fun h => absurd h hpin⟩
  · obtain ⟨a, ha, rfl⟩ := he
    unfold AccessEntry.insts at hcall
    cases hsizes : a.sizes with
    | load =>
        simp only [hsizes, List.mem_cons, reduceCtorEq, Added.call.injEq, List.not_mem_nil,
          or_false, false_or] at hcall
        refine ⟨hpoint (.inr ⟨a, ha, rfl⟩) rfl hcall.2, fun _ => ?_⟩
        rw [hcall.2]
        rfl
    | store size sizeElement =>
        simp only [hsizes, List.mem_cons, reduceCtorEq, Added.call.injEq, List.not_mem_nil,
          or_false, false_or] at hcall
        refine ⟨hpoint (.inr ⟨a, ha, rfl⟩) rfl hcall.2, fun _ => ?_⟩
        rw [hcall.2]
        rfl
  · exact absurd (.inl (.inl he)) hend
  · exact absurd (.inl (.inr he)) hend
  · exact absurd (.inr he) hend

theorem idCall_moduleEdits [DecidableEq Func] {o : InsertionOptions}
    {e : Edit Func Block Inst Value} (he : e ∈ moduleEdits P o V) {callee : Callee}
    {args : List (Operand Value)} (hcall : .call callee args ∈ e.insts)
    (hid : callee.hasId = true) :
    e.HasPoint P V args ∧ (o.disablePin = true → args.getLast? = some .callstackInst) := by
  unfold moduleEdits at he
  rcases List.mem_append.mp he with he | he
  · split at he
    · cases he
    · rcases List.mem_append.mp he with he | he
      · obtain ⟨f, -, rfl⟩ := List.mem_map.mp he
        rw [List.mem_singleton] at hcall
        unfold callstackCall at hcall
        split at hcall <;> injection hcall with hcallee <;> rw [hcallee] at hid <;> cases hid
      · exact idCall_instrumentEdits he hcall hid
  · rcases List.mem_cons.mp he with rfl | he
    · injection List.mem_singleton.mp hcall with hcallee
      rw [hcallee] at hid
      cases hid
    · obtain ⟨i, -, rfl⟩ := List.mem_map.mp he
      injection List.mem_singleton.mp hcall with hcallee
      rw [hcallee] at hid
      cases hid

end Edits

-- ============================================================== the sources

/-- What the reports around an instruction are of: of the instruction
itself; of an invoke whose normal destination begins with it; or of a
global, at the start of main. -/
inductive ModuleInfo.Reported (P : Code Func Block Inst) (info : ModuleInfo Func Inst Value)
    (i : Inst) (debug : Entry) : Prop
  | behind (hposition : info.position i = some debug)
  | invoke (j : Inst) (normalDest unwindDest : Block)
      (hinvoke : P.flowKind j = .invoke normalDest unwindDest)
      (hfirst : P.firstInsertionPt normalDest = i) (hposition : info.position j = some debug)
  | global (g : GlobalVariable Value) (var : DIVariable) (hglobal : g ∈ info.globals)
      (hvar : g.debugInfo.head? = some (some var)) (hdebug : debug = var.debug)
      (hfirst : P.firstInsertionPt (P.entryBlock P.main) = i)

section Sources

/-- A call in the reports is one in the code. -/
theorem mem_reports {m : Meaning Func Block Inst Value State} {number : Nat} {s : State}
    {as : List (Added Value)} {callee : Callee} {args : List Arg}
    (h : .call callee args ∈ m.reports number s as) :
    ∃ operands, .call callee operands ∈ as
      ∧ args = operands.map (m.operand (Frame.captured number) s) := by
  obtain ⟨a, ha, h⟩ := List.mem_flatMap.mp h
  cases a with
  | cast v => cases h
  | call callee' operands =>
      injection List.mem_singleton.mp h with hcallee hargs
      rw [hcallee]
      exact ⟨operands, ha, hargs⟩

theorem mem_reports_of {m : Meaning Func Block Inst Value State} {number : Nat} {s : State}
    {as : List (Added Value)} {callee : Callee} {operands : List (Operand Value)}
    (h : .call callee operands ∈ as) :
    .call callee (operands.map (m.operand (Frame.captured number) s)) ∈ m.reports number s as :=
  List.mem_flatMap.mpr ⟨_, h, List.mem_singleton.mpr rfl⟩

variable {P : Code Func Block Inst} {info : ModuleInfo Func Inst Value}

/-- An entry's place. -/
theorem checkedPlace_entered (hinfo : info.Describes P) {inst : Inst} {debug : Entry}
    (h : info.Entered P inst debug) :
    checkedPlace P (.inst inst) = .after inst
      ∨ ∃ normalDest unwindDest, P.flowKind inst = .invoke normalDest unwindDest
        ∧ checkedPlace P (.inst inst) = .firstInsertionPt normalDest := by
  have hsite := hinfo.isSite h
  cases hk : P.flowKind inst with
  | other => exact .inl (checkedPlace_other hk)
  | invoke normalDest unwindDest =>
      exact .inr ⟨normalDest, unwindDest, rfl, checkedPlace_invoke hk⟩
  | phi | ehPad | ret | terminator =>
      rw [hk] at hsite
      cases hsite

variable [DecidableEq Func] [DecidableEq Inst] {v : VisitorOptions Func Inst Value}
  {V : Visited Func Inst Value} {file : List UInt8}

/-- The reports in the code around an instruction. -/
theorem moduleHooks_names (hcollect : collectAndWrite P info v = some (V, file))
    (horder : v.Ordered) (hinfo : info.Describes P) (o : InsertionOptions) {i : Inst}
    {callee : Callee} {args : List (Operand Value)} (hid : callee.hasId = true)
    (ha : .call callee args ∈ (moduleHooks P o V).before i
      ∨ .call callee args ∈ (moduleHooks P o V).after i) :
    ∃ id rest debug, args = .const id :: rest ∧ Names file id debug ∧ info.Reported P i debug := by
  have hedit : ∃ e ∈ moduleEdits P o V,
      (e.place.IsBefore P i ∨ e.place = .after i) ∧ .call callee args ∈ e.insts := by
    rcases ha with ha | ha
    · rcases mem_before_applyHooks (moduleEdits P o V) ha with ha | ⟨e, he, hplace, hcall⟩
      · exact absurd ha List.not_mem_nil
      · exact ⟨e, he, .inl hplace, hcall⟩
    · obtain ⟨e, he, hplace, hcall⟩ := mem_after_moduleHooks.mp ha
      exact ⟨e, he, .inr hplace, hcall⟩
  obtain ⟨e, he, hplace, hcall⟩ := hedit
  obtain ⟨⟨id, point⟩, hq, heq, rest, hargs⟩ := (idCall_moduleEdits he hcall hid).1
  obtain ⟨debug, hat, hnames⟩ := idPoints_names hcollect horder _ hq
  refine ⟨id, rest, debug, hargs, hnames, ?_⟩
  dsimp only at heq hat
  rw [heq] at hplace
  cases point with
  | firstInstOfMain =>
      obtain ⟨g, hg, var, hvar, hdebug⟩ := hat
      rcases hplace with hplace | hplace
      · exact .global g var hg hvar hdebug hplace
      · cases hplace
  | inst j =>
      rcases checkedPlace_entered hinfo hat with hafter | ⟨normalDest, unwindDest, hinvoke, hfirst⟩
      · rw [hafter] at hplace
        rcases hplace with hplace | hplace
        · exact hplace.elim
        · injection hplace with hplace
          subst hplace
          exact .behind hat.position
      · rw [hfirst] at hplace
        rcases hplace with hplace | hplace
        · exact .invoke j normalDest unwindDest hinvoke hplace hat.position
        · cases hplace

end Sources

section Runs

variable [DecidableEq Func] [DecidableEq Block] [DecidableEq Inst]

/-- In every run of the module the pass makes of a program, the id of
every report is one under which the file of debug data has the position
of what is reported. -/
theorem ids_name_positions (P : Code Func Block Inst) (m : Meaning Func Block Inst Value State)
    (info : ModuleInfo Func Inst Value) (v : VisitorOptions Func Inst Value)
    (o : InsertionOptions) (V : Visited Func Inst Value) (file : List UInt8)
    (hcollect : collectAndWrite P info v = some (V, file)) (horder : v.Ordered)
    (hinfo : info.Describes P) (hm : m.Follows P info)
    (hall : o.disableAllInstrumentation = false) (s : State) :
    let bc : Bitcode Block Inst Value := P.bitcode
    let start := Config.init P bc s
    let start' := Config.init P (instrumentModule P o V bc) s
    let events := m.wovenEvents (moduleHooks P o V)
    ∀ e, Reaches (step P m (instrumentModule P o V bc) Hooks.none) start' e →
      ∃ c, Reaches (step P m bc Hooks.none) start c ∧ e.log <+: c.ran.flatMap events
        ∧ ∀ number i s', .ran number i s' ∈ c.ran → ∀ callee args,
          .call callee args ∈ events (.ran number i s') → callee.hasId = true →
            ∃ id rest debug, args = .word id :: rest ∧ Names file id debug
              ∧ info.Reported P i debug := by
  intro bc start start' events e he
  obtain ⟨c, hc, hlog⟩ := (instrumented_log P m o V hall (collected_placed hcollect horder hinfo)
    (collected_library hcollect horder hm) s).2 e he
  refine ⟨c, hc, hlog, ?_⟩
  intro number i s' _ callee args hcall hid
  have hcode : ∃ (s₁ : State) (operands : List (Operand Value)),
      (.call callee operands ∈ (moduleHooks P o V).before i
        ∨ .call callee operands ∈ (moduleHooks P o V).after i)
        ∧ args = operands.map (m.operand (Frame.captured number) s₁) := by
    rcases List.mem_append.mp hcall with hcall | hcall
    · obtain ⟨operands, hmem, hargs⟩ := mem_reports hcall
      exact ⟨s', operands, .inl hmem, hargs⟩
    · rcases List.mem_cons.mp hcall with hcall | hcall
      · cases hcall
      · unfold Meaning.reportsAfter at hcall
        split at hcall
        · next s₁ _ =>
            obtain ⟨operands, hmem, hargs⟩ := mem_reports hcall
            exact ⟨s₁, operands, .inr hmem, hargs⟩
        · cases hcall
  obtain ⟨s₁, operands, hmem, hargs⟩ := hcode
  obtain ⟨id, rest, debug, rfl, hnames, hreported⟩ :=
    moduleHooks_names hcollect horder hinfo o hid hmem
  exact ⟨id, _, debug, hargs, hnames, hreported⟩

end Runs

/-- The functions of a module in which a ROI begins. -/
inductive TrackingFunc
  | main
  | startTracking
  deriving DecidableEq, Repr

/-- The instructions of its main. -/
inductive TrackingInst
  | alloca
  | call
  | store
  | ret
  deriving DecidableEq, Repr

/-- A main with a variable, in which a ROI begins. -/
def trackingMain : Code TrackingFunc Unit TrackingInst where
  functions := [.main]
  main := .main
  entryBlock _ := ()
  blocks _ := [()]
  insts _ := [.alloca, .call, .store, .ret]
  getParent _ := ()
  getFunction _ := .main
  flowKind
    | .alloca | .call | .store => .other
    | .ret => .ret
  main_mem := List.mem_singleton.mpr rfl
  nodup_functions := by decide
  entryBlock_function f hf := (List.mem_singleton.mp hf).symm
  mem_insts _ i := by
    refine ⟨fun _ => rfl, fun _ => ?_⟩
    cases i <;> decide
  nodup_insts _ := by decide
  back _ := .ret
  insts_back _ := ⟨[.alloca, .call, .store], rfl⟩
  back_terminator _ := rfl
  heads _ := []
  firstInsertionPt _ := .alloca
  insts_heads _ := ⟨[.call, .store, .ret], rfl⟩
  heads_shape _ :=
    ⟨[], [], rfl, Nat.zero_le 1, fun _ h => absurd h List.not_mem_nil,
      fun _ h => absurd h List.not_mem_nil⟩
  firstInsertionPt_body _ := rfl
  heads_entry _ _ := rfl
  dests_entry i _ _ h := by
    cases i <;> cases h

/-- The variable has a `llvm.dbg.declare`; there is a global too, which
is `none` as a value. -/
def trackingInfo : ModuleInfo TrackingFunc TrackingInst (Option TrackingInst) where
  getName
    | .main => "main"
    | .startTracking => "caratGetStateWrapper"
  isIntrinsic _ := false
  instClass
    | .alloca => .alloca (.scalar .pointer) ⟨true, true, some [some ⟨[47], [109], [120], 3⟩]⟩
    | .call => .call (some .startTracking) fun _ => none
    | .store => .store (some .alloca) (.scalar .pointer)
    | .ret => .ret
  getDebugLoc
    | .alloca => none
    | .call | .store | .ret => some ⟨[47], [109], 5, 1⟩
  value := some
  globals := [⟨"total", .scalar .pointer, none, [some ⟨[47], [109], [116], 1⟩]⟩]

/-- Everything in main is instrumented. -/
def trackingOptions : VisitorOptions TrackingFunc TrackingInst (Option TrackingInst) where
  sets := ⟨[.main], [.main], []⟩
  isTheLibraryFunctionPure _ := false
  order entries := entries
  disableStateUsesInstrumentation := false
  uniqueCallstackFunctions := []

/-- The state counts the stores. -/
def trackingMeaning : Meaning TrackingFunc Unit TrackingInst (Option TrackingInst) Nat where
  exec
    | .alloca, s | .call, s => (s, .done)
    | .store, s => (s + 1, .done)
    | .ret, s => (s, .ret)
  eval
    | none, _ => 4096
    | some _, _ => 8192

theorem trackingMain_collects :
    (collectAndWrite trackingMain trackingInfo trackingOptions).isSome = true := rfl

theorem trackingMain_describes : trackingInfo.Describes trackingMain := by
  refine ⟨?_, ?_, ?_, ?_, ?_, ?_⟩
  · exact fun _ _ => List.nodup_singleton ()
  · intro f hf b
    exact ⟨fun _ => (List.mem_singleton.mp hf).symm, fun _ => List.mem_singleton.mpr rfl⟩
  · intro inst called operand h
    cases inst <;> first | rfl | cases h
  · intro inst h
    cases inst <;> first | rfl | cases h
  · intro inst ty metadata h
    cases inst <;> first | rfl | cases h
  · intro inst h
    obtain ⟨fp, operand, hclass, -⟩ := h
    cases inst <;> first | rfl | cases hclass

theorem trackingMain_follows : trackingMeaning.Follows trackingMain trackingInfo := by
  intro inst s f h
  cases inst <;> cases h

theorem ids_name_positions_trackingMain :
    let bc : Bitcode Unit TrackingInst (Option TrackingInst) := trackingMain.bitcode
    let o : InsertionOptions := ⟨false, true, ⟨false, false, false, false, false, false, false, false⟩⟩
    ∃ V file, collectAndWrite trackingMain trackingInfo trackingOptions = some (V, file)
      ∧ ∀ e, Reaches (step trackingMain trackingMeaning (instrumentModule trackingMain o V bc)
          Hooks.none) (Config.init trackingMain (instrumentModule trackingMain o V bc) 0) e →
        ∃ c, Reaches (step trackingMain trackingMeaning bc Hooks.none)
            (Config.init trackingMain bc 0) c
          ∧ e.log <+: c.ran.flatMap (trackingMeaning.wovenEvents (moduleHooks trackingMain o V))
          ∧ ∀ number i s', .ran number i s' ∈ c.ran → ∀ callee args,
            .call callee args ∈
              trackingMeaning.wovenEvents (moduleHooks trackingMain o V) (.ran number i s') →
            callee.hasId = true →
              ∃ id rest debug, args = .word id :: rest ∧ Names file id debug
                ∧ trackingInfo.Reported trackingMain i debug := by
  intro bc o
  obtain ⟨⟨V, file⟩, hcollect⟩ := Option.isSome_iff_exists.mp trackingMain_collects
  exact ⟨V, file, hcollect, ids_name_positions trackingMain trackingMeaning trackingInfo
    trackingOptions o V file hcollect (fun _ => List.Perm.refl _) trackingMain_describes
    trackingMain_follows rfl 0⟩

end Carmot.Pass
