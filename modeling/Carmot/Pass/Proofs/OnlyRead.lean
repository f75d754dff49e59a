/-
What the cache of an only-read load lets through.

The cache holds the last address the load was reached with, in a ROI or
not, and the wrapper behind it holds the addresses loaded since the
last ROI ended. Both can be read off the events that came before
(`newAllocation_eq`, `mem_loads_iff`), so whether one execution of the
load is passed on can be too (`passed_iff`). A pair of ROI and address
is lost when none of its executions is.
-/
import Carmot.Pass.EmittedCode

namespace Carmot.Pass

open Carmot.Texas
open Carmot.Wrapper
open Carmot.Lib (Rw concat_eq_append_cons)

-- ====================================================== what came before

/-- The address of the load's last execution; the null pointer before
the first. -/
def lastLoaded : List LoadEvent → Addr := fun events =>
  events.foldl (fun last event =>
    match event with
    | .load addr _ => addr
    | .call _ => last) 0

/-- Does the event end a ROI? -/
def LoadEvent.isReport : LoadEvent → Bool
  | .call (.caratReportState _) => true
  | _ => false

/-- Does the event end an invocation of the ROI? -/
def LoadEvent.endsInvocation (s : StateId) : LoadEvent → Bool
  | .call (.endStateInvocation t) => decide (t = s)
  | _ => false

/-- The invocation of a ROI some events are in: how many have ended
before. -/
def invocation (s : StateId) (events : List LoadEvent) : Nat :=
  events.countP (LoadEvent.endsInvocation s)

/-- Does the event, after some others, ask a wrapper to record a load of
the address? -/
def LoadEvent.Asks (before : List LoadEvent) (p : Addr) : LoadEvent → Prop
  | .load addr _ => addr = p ∧ lastLoaded before ≠ p
  | .call (.texasAddToStateLoad _ ptr _) => ptr = p
  | .call (.texasAddMultiToStatePin _ addresses _) => .touched p false ∈ addresses
  | .call _ => False

section Run

variable (cfg : WrapperConfig) (id : UInt64)

/-- The ROI some events leave active. -/
def activeAfter (events : List LoadEvent) : Option StateId :=
  (LoadRun.after cfg id events).wrappers.producer.activeState

/-- A load of the address was recorded in a ROI since the last ROI
ended. -/
def LoadedSince (events : List LoadEvent) (p : Addr) : Prop :=
  ∃ before event since, events = before ++ event :: since
    ∧ (∀ e ∈ since, e.isReport = false)
    ∧ activeAfter cfg id before ≠ none ∧ event.Asks before p

/-- This execution of the load passes its address to `AddToState`. -/
def Passed (before : List LoadEvent) (p : Addr) (callstackInst : Option Trace) : Prop :=
  ∃ uniqueID, Call.addToState p .read uniqueID
    ∈ (LoadRun.step cfg id (LoadRun.after cfg id before) (.load p callstackInst)).2

/-- The load executes with the address while the ROI is active, in the
given invocation of it. -/
def ExecutesIn (events before : List LoadEvent) (p : Addr) (callstackInst : Option Trace)
    (s : StateId) (k : Nat) : Prop :=
  (∃ since, events = before ++ .load p callstackInst :: since)
    ∧ activeAfter cfg id before = some s ∧ invocation s before = k

/-- No pair is lost: whatever the load executes with in an invocation of
a ROI is passed on there at least once. -/
def LosesNone (events : List LoadEvent) : Prop :=
  ∀ before p callstackInst s k, ExecutesIn cfg id events before p callstackInst s k →
    ∃ before' callstackInst', ExecutesIn cfg id events before' p callstackInst' s k
      ∧ Passed cfg id before' p callstackInst'

end Run

-- ==================================================== the seen addresses

section Seen

variable {cfg : WrapperConfig} {p : Addr}

variable (cfg p) in
/-- An address asked for is in the set afterwards, found or added. -/
theorem mem_loads_checkSeen (sn : Seen) (q : Addr) (rw : Rw) :
    p ∈ ((cfg.checkSeen sn q rw).getD sn).loads ↔ p ∈ sn.loads ∨ (rw = .read ∧ p = q) := by
  unfold WrapperConfig.checkSeen
  by_cases h : (cfg.earlyReturns && decide (q ∈ sn.of rw)) = true
  · rw [if_pos h, Option.getD_none]
    have hq : q ∈ sn.of rw := of_decide_eq_true (Bool.and_eq_true_iff.mp h).2
    constructor
    · exact Or.inl
    · rintro (hp | ⟨rfl, rfl⟩)
      · exact hp
      · exact hq
  · rw [if_neg h, Option.getD_some]
    cases rw with
    | read => simp [Seen.insert, or_comm]
    | write => simp [Seen.insert]

theorem pinRw_eq_read {isWritten : Bool} : pinRw isWritten = .read ↔ isWritten = false := by
  cases isWritten <;> simp [pinRw]

/-- In a ROI the loop over PIN's events asks for every access. -/
theorem mem_loads_pinLoop (s : StateId) (uniqueID : UInt64) (addresses : List PinAddress) :
    ∀ sn : Seen, p ∈ (cfg.pinLoop (some s) uniqueID sn addresses).1.loads ↔
      p ∈ sn.loads ∨ .touched p false ∈ addresses := by
  induction addresses with
  | nil => intro sn; simp [WrapperConfig.pinLoop]
  | cons event rest ih =>
      intro sn
      cases event with
      | touched address isWritten =>
          have hone := mem_loads_checkSeen cfg p sn address (pinRw isWritten)
          have hrest : (cfg.pinLoop (some s) uniqueID sn
              (.touched address isWritten :: rest)).1
              = (cfg.pinLoop (some s) uniqueID
                  ((cfg.checkSeen sn address (pinRw isWritten)).getD sn) rest).1 := by
            simp only [WrapperConfig.pinLoop]
            cases cfg.checkSeen sn address (pinRw isWritten) with
            | none => rfl
            | some sn' => rfl
          rw [hrest, ih, hone, pinRw_eq_read]
          simp only [List.mem_cons, PinAddress.touched.injEq, or_assoc]
          apply or_congr_right
          apply or_congr_left
          constructor
          · rintro ⟨rfl, rfl⟩
            exact ⟨rfl, rfl⟩
          · rintro ⟨rfl, rfl⟩
            exact ⟨rfl, rfl⟩
      | malloc address size =>
          have hrest : (cfg.pinLoop (some s) uniqueID sn (.malloc address size :: rest)).1
              = (cfg.pinLoop (some s) uniqueID sn rest).1 := rfl
          rw [hrest, ih]
          simp
      | free address =>
          have hrest : (cfg.pinLoop (some s) uniqueID sn (.free address :: rest)).1
              = (cfg.pinLoop (some s) uniqueID sn rest).1 := rfl
          rw [hrest, ih]
          simp

/-- Outside of a ROI the loop adds nothing. -/
theorem pinLoop_outside_seen (uniqueID : UInt64) (addresses : List PinAddress) :
    ∀ sn : Seen, (cfg.pinLoop none uniqueID sn addresses).1 = sn := by
  induction addresses with
  | nil => intro sn; rfl
  | cons event rest ih =>
      intro sn
      cases event with
      | touched address isWritten => simp only [WrapperConfig.pinLoop]
      | malloc address size => exact ih sn
      | free address => exact ih sn

/-- An access in a ROI asks for its address. -/
theorem mem_loads_accessWrapper (w : Wrappers) (id : UInt64) (ptr : Addr) (rw : Rw)
    (traceArg : Option Trace) (addresses : List Addr) :
    p ∈ (cfg.accessWrapper w id ptr rw traceArg addresses).1.seen.loads ↔
      p ∈ w.seen.loads ∨ (w.producer.activeState ≠ none ∧ rw = .read ∧ p = ptr) := by
  have hone := mem_loads_checkSeen cfg p w.seen ptr rw
  unfold WrapperConfig.accessWrapper
  cases hact : w.producer.activeState with
  | none => simp
  | some s =>
      cases hseen : cfg.checkSeen w.seen ptr rw with
      | none =>
          rw [hseen, Option.getD_none] at hone
          simpa using hone
      | some sn =>
          rw [hseen, Option.getD_some] at hone
          simpa using hone

variable (cfg p) in
/-- What a call of a wrapper does to the set. -/
theorem mem_loads_call (w : Wrappers) (c : WrapperCall) (before : List LoadEvent) :
    p ∈ (cfg.call w c).1.seen.loads ↔
      ((LoadEvent.call c).isReport = false ∧ p ∈ w.seen.loads)
        ∨ (w.producer.activeState ≠ none ∧ (LoadEvent.call c).Asks before p) := by
  have hbody : (cfg.call w c).1.seen = (cfg.body w c).1.seen := rfl
  rw [hbody]
  cases c with
  | texasAddToStateLoad id ptr traceArg =>
      show p ∈ (cfg.accessWrapper w id ptr .read traceArg [ptr]).1.seen.loads ↔ _
      rw [mem_loads_accessWrapper]
      simp [LoadEvent.isReport, LoadEvent.Asks, eq_comm]
  | texasAddToStateWithInfo id ptr sizeInBytes sizeElementInBytes traceArg =>
      show p ∈ (cfg.accessWrapper w id ptr .write traceArg _).1.seen.loads ↔ _
      rw [mem_loads_accessWrapper]
      simp [LoadEvent.isReport, LoadEvent.Asks]
  | texasAddMultiToStatePin id addresses traceArg =>
      show p ∈ (cfg.pinLoop w.producer.activeState (cfg.useID w.callstacks id traceArg).2 w.seen
        addresses).1.loads ↔ _
      cases w.producer.activeState with
      | none =>
          rw [pinLoop_outside_seen]
          simp [LoadEvent.isReport]
      | some s =>
          rw [mem_loads_pinLoop]
          simp [LoadEvent.isReport, LoadEvent.Asks]
  | setDirectState id startPtr startIndVar stopIndVar elementBitwidth stateToSet traceArg =>
      have hseen : (cfg.body w (.setDirectState id startPtr startIndVar stopIndVar
          elementBitwidth stateToSet traceArg)).1.seen = w.seen := by
        show (cfg.setDirectState w id startPtr startIndVar stopIndVar elementBitwidth stateToSet
          traceArg).1.seen = w.seen
        unfold WrapperConfig.setDirectState
        cases w.producer.activeState with
        | none => rfl
        | some s => rfl
      rw [hseen]
      simp [LoadEvent.isReport, LoadEvent.Asks]
  | caratReportState stateID =>
      show p ∈ Seen.empty.loads ↔ _
      simp [LoadEvent.isReport, LoadEvent.Asks, Seen.empty]
  | caratStateAlloc id address length traceArg =>
      show p ∈ w.seen.loads ↔ _
      simp [LoadEvent.isReport, LoadEvent.Asks]
  | caratStateCalloc id address length sizeOfEntry traceArg =>
      show p ∈ w.seen.loads ↔ _
      simp [LoadEvent.isReport, LoadEvent.Asks]
  | caratStateRealloc id address newAddress length traceArg =>
      show p ∈ w.seen.loads ↔ _
      simp [LoadEvent.isReport, LoadEvent.Asks]
  | caratStateRemoveFromAllocationTable address =>
      show p ∈ w.seen.loads ↔ _
      simp [LoadEvent.isReport, LoadEvent.Asks]
  | caratAddToEscapeTable ptr =>
      show p ∈ w.seen.loads ↔ _
      simp [LoadEvent.isReport, LoadEvent.Asks]
  | caratGetState funcName lineNum =>
      show p ∈ w.seen.loads ↔ _
      simp [LoadEvent.isReport, LoadEvent.Asks]
  | endStateInvocation stateID =>
      show p ∈ w.seen.loads ↔ _
      simp [LoadEvent.isReport, LoadEvent.Asks]
  | findCycleInAllocationMap sync =>
      show p ∈ w.seen.loads ↔ _
      simp [LoadEvent.isReport, LoadEvent.Asks]

end Seen

-- ================================================================ the run

section Run

variable {cfg : WrapperConfig} {id : UInt64} {p : Addr}

theorem after_append (events : List LoadEvent) (event : LoadEvent) :
    LoadRun.after cfg id (events ++ [event])
      = (LoadRun.step cfg id (LoadRun.after cfg id events) event).1 := by
  unfold LoadRun.after
  rw [List.foldl_append]
  rfl

variable (cfg id) in
/-- The cache holds the last address. -/
theorem newAllocation_eq (events : List LoadEvent) :
    (LoadRun.after cfg id events).newAllocation = lastLoaded events := by
  induction events using List.reverseRecOn with
  | nil => rfl
  | append_singleton events event ih =>
      rw [after_append]
      cases event with
      | load addr callstackInst =>
          have hlast : lastLoaded (events ++ [.load addr callstackInst]) = addr := by
            unfold lastLoaded
            rw [List.foldl_append]
            rfl
          rw [hlast]
          simp only [LoadRun.step, executeOnlyRead]
          split
          next heq => exact heq.symm
          next => rfl
      | call c =>
          have hlast : lastLoaded (events ++ [.call c]) = lastLoaded events := by
            unfold lastLoaded
            rw [List.foldl_append]
            rfl
          rw [hlast]
          exact ih

/-- One more event: it asks itself, or it ends no ROI and an earlier one
asked. -/
theorem loadedSince_append (events : List LoadEvent) (event : LoadEvent) :
    LoadedSince cfg id (events ++ [event]) p ↔
      (event.isReport = false ∧ LoadedSince cfg id events p)
        ∨ (activeAfter cfg id events ≠ none ∧ event.Asks events p) := by
  constructor
  · rintro ⟨before, e, since, heq, hsince, hact, hasks⟩
    rcases concat_eq_append_cons heq with ⟨rfl, rfl, -⟩ | ⟨since', rfl, rfl⟩
    · exact Or.inr ⟨hact, hasks⟩
    · refine Or.inl ⟨hsince event (by simp), before, e, since', rfl, fun x hx => ?_, hact, hasks⟩
      exact hsince x (by simp [hx])
  · rintro (⟨hrep, before, e, since, rfl, hsince, hact, hasks⟩ | ⟨hact, hasks⟩)
    · refine ⟨before, e, since ++ [event], by simp, fun x hx => ?_, hact, hasks⟩
      rcases List.mem_append.mp hx with hx | hx
      · exact hsince x hx
      · rw [List.mem_singleton.mp hx]
        exact hrep
    · exact ⟨events, event, [], rfl, by simp, hact, hasks⟩

theorem not_loadedSince_nil : ¬ LoadedSince cfg id [] p := by
  rintro ⟨before, e, since, heq, -⟩
  cases before <;> cases heq

/-- The wrapper's set holds what was loaded since the last ROI ended. -/
theorem mem_loads_iff (events : List LoadEvent) :
    p ∈ (LoadRun.after cfg id events).wrappers.seen.loads ↔ LoadedSince cfg id events p := by
  induction events using List.reverseRecOn with
  | nil =>
      constructor
      · intro h
        exact absurd h (Finset.notMem_empty p)
      · exact fun h => absurd h not_loadedSince_nil
  | append_singleton events event ih =>
      rw [after_append, loadedSince_append, ← ih]
      cases event with
      | call c => exact mem_loads_call cfg p (LoadRun.after cfg id events).wrappers c events
      | load addr callstackInst =>
          have hlast := newAllocation_eq cfg id events
          simp only [LoadRun.step, executeOnlyRead, hlast]
          by_cases hsame : addr = lastLoaded events
          · rw [if_pos hsame]
            have hno : ¬ (LoadEvent.load addr callstackInst).Asks events p := by
              rintro ⟨rfl, hne⟩
              exact hne hsame.symm
            simp [WrapperConfig.calls, LoadEvent.isReport, hno]
          · rw [if_neg hsame]
            -- the execution calls the wrapper as any other load does
            have hcall := mem_loads_call cfg p
              (LoadRun.after cfg id events).wrappers
              (.texasAddToStateLoad id addr callstackInst) events
            have hasks : (LoadEvent.load addr callstackInst).Asks events p ↔ addr = p := by
              constructor
              · exact And.left
              · rintro rfl
                exact ⟨rfl, fun h => hsame h.symm⟩
            rw [hasks]
            simpa [WrapperConfig.calls, LoadEvent.isReport, LoadEvent.Asks, activeAfter] using hcall

/-- An execution of the load is passed on exactly when a ROI is active,
the load's last execution had another address, and no load of the
address was recorded since the last ROI ended. -/
theorem passed_iff (hret : cfg.earlyReturns = true) (before : List LoadEvent)
    (callstackInst : Option Trace) :
    Passed cfg id before p callstackInst ↔
      activeAfter cfg id before ≠ none ∧ lastLoaded before ≠ p
        ∧ ¬ LoadedSince cfg id before p := by
  have hlast := newAllocation_eq cfg id before
  unfold Passed activeAfter
  rw [← mem_loads_iff]
  generalize hr : LoadRun.after cfg id before = r at hlast ⊢
  simp only [LoadRun.step, executeOnlyRead, hlast]
  by_cases hsame : p = lastLoaded before
  · simp [hsame, WrapperConfig.calls]
  · rw [if_neg hsame]
    have hmade : (cfg.calls r.wrappers [.texasAddToStateLoad id p callstackInst]).2
        = (cfg.accessWrapper r.wrappers id p .read callstackInst [p]).2 := by
      simp only [WrapperConfig.calls, List.append_nil]
      rfl
    rw [hmade]
    unfold WrapperConfig.accessWrapper WrapperConfig.checkSeen
    cases r.wrappers.producer.activeState with
    | none => simp
    | some s =>
        by_cases hmem : p ∈ r.wrappers.seen.loads
        · simp [hret, Seen.of, hmem]
        · simp [hret, Seen.of, hmem, Ne.symm hsame]

end Run

/-- No pair of a ROI's invocation and an address is lost exactly when
each has an execution of the load in it whose address is not that of
the load's last execution and was not recorded by a load since the last
ROI ended. -/
theorem losesNone_iff (cfg : WrapperConfig) (id : UInt64) (hret : cfg.earlyReturns = true)
    (events : List LoadEvent) :
    LosesNone cfg id events ↔
      ∀ before p callstackInst s k, ExecutesIn cfg id events before p callstackInst s k →
        ∃ before' callstackInst', ExecutesIn cfg id events before' p callstackInst' s k
          ∧ lastLoaded before' ≠ p ∧ ¬ LoadedSince cfg id before' p := by
  unfold LosesNone
  constructor
  · intro h before p callstackInst s k hex
    obtain ⟨before', callstackInst', hex', hpassed⟩ := h before p callstackInst s k hex
    exact ⟨before', callstackInst', hex', ((passed_iff hret before' callstackInst').mp hpassed).2⟩
  · intro h before p callstackInst s k hex
    obtain ⟨before', callstackInst', hex', hrest⟩ := h before p callstackInst s k hex
    refine ⟨before', callstackInst', hex', (passed_iff hret before' callstackInst').mpr ⟨?_, hrest⟩⟩
    rw [hex'.2.1]
    simp

/-- Call stacks and uses off, the early returns in place. -/
def plainConfig : WrapperConfig where
  uint64Hash := fun n => n
  save := ⟨true, true⟩
  options := Options.default
  earlyReturns := true

/-- One load in one ROI. -/
theorem losesNone_oneLoad :
    LosesNone plainConfig 1 [.call (.caratGetState "main" 3), .load 0x1000 none] := by
  refine (losesNone_iff plainConfig 1 rfl _).mpr fun before p callstackInst s k hex => ?_
  refine ⟨before, callstackInst, hex, ?_⟩
  obtain ⟨⟨since, heq⟩, -⟩ := hex
  rcases before with _ | ⟨a, _ | ⟨b, before⟩⟩
  · simp at heq
  · simp only [List.cons_append, List.nil_append, List.cons.injEq, LoadEvent.load.injEq] at heq
    obtain ⟨rfl, ⟨rfl, -⟩, -⟩ := heq
    refine ⟨by decide, ?_⟩
    rw [← mem_loads_iff]
    decide
  · simp at heq

/-- One address in two invocations of one ROI. -/
def twoInvocations : List LoadEvent :=
  [.call (.caratGetState "main" 3), .load 0x1000 none, .call (.caratReportState 0),
    .call (.endStateInvocation 0), .call (.caratGetState "main" 3), .load 0x1000 none]

/-- The second invocation is left without the address: the cache still
has it. -/
theorem not_losesNone_twoInvocations : ¬ LosesNone plainConfig 1 twoInvocations := by
  intro h
  obtain ⟨before, callstackInst, ⟨⟨since, heq⟩, -, hk⟩, uniqueID, hpassed⟩ :=
    h (twoInvocations.take 5) 0x1000 none 0 1 ⟨⟨[], rfl⟩, by decide, by decide⟩
  unfold twoInvocations at heq
  rcases before with _ | ⟨a, _ | ⟨b, _ | ⟨c, _ | ⟨d, _ | ⟨e, _ | ⟨f, before⟩⟩⟩⟩⟩⟩
  · simp at heq
  · -- the first invocation's execution
    simp only [List.cons_append, List.nil_append, List.cons.injEq] at heq
    obtain ⟨rfl, -⟩ := heq
    exact absurd hk (by decide)
  · simp at heq
  · simp at heq
  · simp at heq
  · simp only [List.cons_append, List.nil_append, List.cons.injEq, LoadEvent.load.injEq] at heq
    obtain ⟨rfl, rfl, rfl, rfl, rfl, ⟨-, rfl⟩, -⟩ := heq
    exact absurd hpassed (List.not_mem_nil)
  · simp at heq

end Carmot.Pass
