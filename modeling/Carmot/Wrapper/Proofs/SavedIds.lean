/-
When every id that is looked up at the end is known.

An id is issued once `saveCallstack` returned it: `dynamicTraces` has it
from then on. The wrappers put issued ids into the queue, with one
exception: under `disableStateUses` the id of a PIN call is 0, which is
right for its accesses, whose uses nobody looks up, and not for the
blocks it reports, whose origin it becomes (`known_body`). Ids pass
through the queue and the worker unchanged, and the only object that no
wrapper brought is the sentinel, found under the highest address.

`savedIds_issued`: a run in which neither happens looks up issued ids
only.
-/
import Carmot.Texas.Proofs.Origins
import Carmot.Texas.Proofs.Window
import Carmot.Wrapper.Calls
import Carmot.Wrapper.Proofs.Callstack
import Carmot.Wrapper.Proofs.Save

namespace Carmot.Wrapper

open Carmot.Texas
open Carmot.Lib (Rw)

-- ============================================================ through the queue

section Queue

variable (env : Env) (ptrs : StateId → StatePtrs) (cl : Cleaner) (e : ShadowEntry)

/-- Cleaning keeps the address and the id of an entry. -/
theorem fields_cleaned :
    (reassignEntry env.options ptrs (cleanEntry env cl e).2).ptr = e.ptr
      ∧ (reassignEntry env.options ptrs (cleanEntry env cl e).2).information = e.information := by
  have hsecond : ∀ e', (reassignEntry env.options ptrs e').ptr = e'.ptr
      ∧ (reassignEntry env.options ptrs e').information = e'.information := by
    intro e'
    unfold reassignEntry dropAccess
    repeat' split
    all_goals exact ⟨rfl, rfl⟩
  have hfirst : (cleanEntry env cl e).2.ptr = e.ptr
      ∧ (cleanEntry env cl e).2.information = e.information := by
    unfold cleanEntry
    repeat' split
    all_goals exact ⟨rfl, rfl⟩
  exact ⟨(hsecond _).1.trans hfirst.1, (hsecond _).2.trans hfirst.2⟩

/-- A cleaned entry records only where the raw one is an access or a
region. -/
theorem recording_of_cleaned
    (h : (reassignEntry env.options ptrs (cleanEntry env cl e).2).operation.recording = true) :
    e.operation.recording = true := by
  rcases keepsTable_cleaned env ptrs cl e with heq | ⟨hacc, -⟩ | ⟨-, hred⟩
  · rw [heq] at h
    exact h
  · rcases Operation.isAccess_iff.mp hacc with h | h
    · rw [h]
      rfl
    · rw [h]
      rfl
  · rw [hred] at h
    cases h

end Queue

/-- What the stream executes is the cleaned form of a write. -/
theorem mem_idealStream {env : Env} {e : ShadowEntry} (ds : List (List SlotWrite)) :
    ∀ {sw : Sweep}, e ∈ idealStream env sw ds →
      ∃ w ∈ ds.flatten, ∃ ptrs cl, e = reassignEntry env.options ptrs (cleanEntry env cl w.entry).2 := by
  induction ds with
  | nil => intro sw h; cases h
  | cons ws ds ih =>
      intro sw h
      rw [List.flatten_cons]
      rcases List.mem_append.mp h with h | h
      · obtain ⟨pre, post, hsplit⟩ := List.append_of_mem h
        obtain ⟨pre', e', post', hws, -, he⟩ := cleanedAs_split hsplit
        have hmem : e' ∈ ws.map SlotWrite.entry := by
          rw [hws]
          exact List.mem_append_right _ (List.mem_cons_self ..)
        obtain ⟨w, hw, hentry⟩ := List.mem_map.mp hmem
        rw [← hentry] at he
        exact ⟨w, List.mem_append_left _ hw, _, _, he⟩
      · obtain ⟨w, hw, hform⟩ := ih h
        exact ⟨w, List.mem_append_right _ hw, hform⟩

-- ================================================================= writes

/-- Which ids are fine as an origin and as a use. -/
structure Ids where
  origin : UInt64 → Prop
  use : UInt64 → Prop

/-- The write brings fine ids and records nothing for the highest
address. -/
def Ids.Write (ids : Ids) : SlotWrite → Prop
  | .allocAdd _ _ origin _ => ids.origin origin
  | .access _ p id => p ≠ maxAddr ∧ ids.use id
  | .regionSet p _ _ _ id => p ≠ maxAddr ∧ ids.use id
  | _ => True

/-- The call does. -/
def Ids.Call (ids : Ids) : Texas.Call → Prop
  | .addToAllocationTable _ _ origin | .addToAllocationTableIn _ _ origin _ => ids.origin origin
  | .addToState p _ id => p ≠ maxAddr ∧ ids.use id
  | .setStateRegion p _ _ _ id => p ≠ maxAddr ∧ ids.use id
  | _ => True

section Writes

variable {ids : Ids}

theorem Ids.Call.mono {ids' : Ids} (horigin : ∀ id, ids.origin id → ids'.origin id)
    (huse : ∀ id, ids.use id → ids'.use id) {c : Texas.Call} (h : ids.Call c) : ids'.Call c := by
  cases c with
  | addToAllocationTable address length origin => exact horigin origin h
  | addToAllocationTableIn address length origin state => exact horigin origin h
  | addToState p rw id => exact ⟨h.1, huse id h.2⟩
  | setStateRegion p length stateID stateToSet id => exact ⟨h.1, huse id h.2⟩
  | _ => exact h

/-- A call writes what it was given. -/
theorem Ids.Call.writes {c : Texas.Call} (h : ids.Call c) (trackCycles : Bool) (p : Producer) :
    ∀ w ∈ writesOf (p.call trackCycles c).2, ids.Write w := by
  intro w hw
  cases c with
  | addToAllocationTable address length origin =>
      rw [List.mem_singleton.mp hw]
      exact h
  | addToAllocationTableIn address length origin state =>
      rw [List.mem_singleton.mp hw]
      exact h
  | addToState q rw id =>
      simp only [Producer.call] at hw
      split at hw
      · cases hw
      · rw [List.mem_singleton.mp hw]
        exact h
  | setStateRegion q length stateID stateToSet id =>
      rw [List.mem_singleton.mp hw]
      exact h
  | removeFromAllocationTable address =>
      rw [List.mem_singleton.mp hw]
      trivial
  | removeFromAllocationTableIn address state =>
      rw [List.mem_singleton.mp hw]
      trivial
  | addToEscapeTable address =>
      cases trackCycles with
      | false => cases hw
      | true =>
          rw [List.mem_singleton.mp hw]
          trivial
  | findCycleInAllocationMap sync stateID =>
      rw [List.mem_singleton.mp hw]
      trivial
  | getState funcName lineNum =>
      rw [List.mem_singleton.mp hw]
      trivial
  | endState stateID =>
      simp only [Producer.call] at hw
      split at hw
      · cases hw
      · rw [List.mem_singleton.mp hw]
        trivial
  | endStateInvocation stateID =>
      simp only [Producer.call] at hw
      split at hw
      · rw [List.mem_singleton.mp hw]
        trivial
      · cases hw
  | addRedundantOp =>
      rw [List.mem_singleton.mp hw]
      trivial

theorem Ids.writes_calls (trackCycles : Bool) (cs : List Texas.Call) :
    ∀ p : Producer, (∀ c ∈ cs, ids.Call c) →
      ∀ w ∈ writesOf (p.calls trackCycles cs).2, ids.Write w := by
  induction cs with
  | nil => intro p _ w hw; cases hw
  | cons c cs ih =>
      intro p hcs w hw
      have hsplit : writesOf (p.calls trackCycles (c :: cs)).2
          = writesOf (p.call trackCycles c).2
            ++ writesOf ((p.call trackCycles c).1.calls trackCycles cs).2 := writesOf_append _ _
      rw [hsplit] at hw
      rcases List.mem_append.mp hw with hw | hw
      · exact (hcs c (List.mem_cons_self ..)).writes trackCycles p w hw
      · exact ih _ (fun c' hc' => hcs c' (List.mem_cons_of_mem _ hc')) w hw

/-- The entry of a fine write, cleaned. -/
theorem Ids.Write.cleaned {w : SlotWrite} (h : ids.Write w) (env : Env)
    (ptrs : StateId → StatePtrs) (cl : Cleaner) :
    let e := reassignEntry env.options ptrs (cleanEntry env cl w.entry).2
    KnownEntry ids.origin e ∧ (e.operation.recording = true → ids.use e.information) := by
  intro e
  obtain ⟨hptr, hid⟩ := fields_cleaned env ptrs cl w.entry
  have hrec := recording_of_cleaned env ptrs cl w.entry
  refine ⟨⟨fun hop => ?_, fun hop => ?_⟩, fun hop => ?_⟩
  · have hraw : w.entry.operation = .allocAdd :=
      ((keepsTable_cleaned env ptrs cl w.entry).operation_iff untouched_allocAdd).mp hop
    show ids.origin e.information
    rw [hid]
    cases w with
    | allocAdd address length origin state => exact h
    | access rw p id => cases rw <;> cases hraw
    | _ => cases hraw
  · show e.ptr ≠ maxAddr
    rw [hptr]
    have hraw := hrec hop
    cases w with
    | access rw p id => exact h.1
    | regionSet p length state stateToSet id => exact h.1
    | _ => cases hraw
  · show ids.use e.information
    rw [hid]
    have hraw := hrec hop
    cases w with
    | access rw p id => exact h.2
    | regionSet p length state stateToSet id => exact h.2
    | _ => cases hraw

end Writes

-- ================================================================ issuing

/-- `saveCallstack` returned the id. -/
def Issued (cs : Callstacks) (id : UInt64) : Prop := (cs.dynamicTraces id).isSome = true

/-- Every record in a bucket has an issued id. -/
def RecordsIssued (cs : Callstacks) : Prop := ∀ d n, ∀ r ∈ bucketOf cs d n, Issued cs r.uniqueID

theorem recordsIssued_init : RecordsIssued Callstacks.init := by
  intro d n r hr
  cases hr

/-- What is issued stays issued. -/
structure Issues (cs cs' : Callstacks) : Prop where
  records : RecordsIssued cs'
  mono : ∀ id, Issued cs id → Issued cs' id

theorem Issues.trans {cs cs' cs'' : Callstacks} (h : Issues cs cs') (h' : Issues cs' cs'') :
    Issues cs cs'' := ⟨h'.records, fun id hid => h'.mono id (h.mono id hid)⟩

theorem issued_push (cs : Callstacks) (trace : Trace) (staticID dynamicID id : UInt64) :
    Issued (incrementPushReturn cs trace staticID dynamicID).1 id ↔
      Issued cs id ∨ id = cs.globalID := by
  unfold Issued incrementPushReturn
  by_cases hid : id = cs.globalID
  · simp [hid]
  · simp [hid]

/-- Saving a stack issues the id it returns. -/
theorem saveCallstack_issued (uint64Hash : UInt64 → UInt64) {cs : Callstacks}
    (hrec : RecordsIssued cs) (staticID : UInt64) (trace : Trace) :
    Issues cs (saveCallstack uint64Hash cs staticID (some trace)).1
      ∧ Issued (saveCallstack uint64Hash cs staticID (some trace)).1
        (saveCallstack uint64Hash cs staticID (some trace)).2 := by
  rw [saveCallstack_eq]
  split
  · refine ⟨⟨?_, ?_⟩, (issued_push ..).mpr (Or.inr rfl)⟩
    · intro d n r hr
      rw [issued_push]
      rw [bucketOf_push] at hr
      rcases List.mem_append.mp hr with hr | hr
      · exact Or.inl (hrec d n r hr)
      · split at hr
        · rw [List.mem_singleton.mp hr]
          exact Or.inr rfl
        · cases hr
    · exact fun id hid => (issued_push ..).mpr (Or.inl hid)
  next existing hfound =>
    exact ⟨⟨hrec, fun _ hid => hid⟩, hrec _ _ existing (List.mem_of_find?_eq_some hfound)⟩

/-- The ids that are fine after the calls so far: issued ones, and any
as a use that nobody looks up. -/
def fineIds (o : SaveOptions) (cs : Callstacks) : Ids where
  origin := Issued cs
  use := fun id => o.disableStateUses = false → Issued cs id

theorem Issues.call {o : SaveOptions} {cs cs' : Callstacks} (h : Issues cs cs') {c : Texas.Call}
    (hc : (fineIds o cs).Call c) : (fineIds o cs').Call c := by
  apply hc.mono
  · exact h.mono
  · exact fun id hid huse => h.mono id (hid huse)

-- =========================================================== the wrappers

/-- A block that PIN reports needs an origin, and the highest address is
the sentinel's. -/
def PinAddress.IdsKnown (o : SaveOptions) : PinAddress → Prop
  | .touched address _ => address ≠ maxAddr
  | .malloc _ _ => o.disableStateUses = false
  | .free _ => True

/-- No access to the highest address, and no block reported by PIN while
uses are disabled. -/
def WrapperCall.IdsKnown (o : SaveOptions) : WrapperCall → Prop
  | .texasAddToStateWithInfo _ ptr sizeInBytes sizeElementInBytes _ =>
      ∀ p ∈ elements ptr sizeInBytes sizeElementInBytes, p ≠ maxAddr
  | .texasAddToStateLoad _ ptr _ => ptr ≠ maxAddr
  | .setDirectState _ startPtr _ _ _ _ _ => startPtr ≠ maxAddr
  | .texasAddMultiToStatePin _ addresses _ => ∀ p ∈ addresses, p.IdsKnown o
  | _ => True

section Wrappers

variable {cfg : WrapperConfig} {w : Wrappers}

theorem allocID_issued (hstack : cfg.save.disableCallstack = false) {cs : Callstacks}
    (hrec : RecordsIssued cs) (id : UInt64) {traceArg : Option Trace} (htrace : traceArg ≠ none) :
    Issues cs (cfg.allocID cs id traceArg).1
      ∧ Issued (cfg.allocID cs id traceArg).1 (cfg.allocID cs id traceArg).2 := by
  obtain ⟨trace, rfl⟩ := Option.ne_none_iff_exists'.mp htrace
  unfold WrapperConfig.allocID
  rw [hstack]
  exact saveCallstack_issued cfg.uint64Hash hrec id trace

theorem useID_issued (hstack : cfg.save.disableCallstack = false) {cs : Callstacks}
    (hrec : RecordsIssued cs) (id : UInt64) {traceArg : Option Trace} (htrace : traceArg ≠ none) :
    Issues cs (cfg.useID cs id traceArg).1
      ∧ (fineIds cfg.save (cfg.useID cs id traceArg).1).use (cfg.useID cs id traceArg).2 := by
  unfold WrapperConfig.useID
  split
  next hdis =>
    refine ⟨⟨hrec, fun id hid => hid⟩, fun huse => ?_⟩
    rw [huse] at hdis
    cases hdis
  · obtain ⟨hissues, hid⟩ := allocID_issued hstack hrec id htrace
    exact ⟨hissues, fun _ => hid⟩

theorem pinLoop_known {cs : Callstacks} {active : Option StateId} {uniqueID : UInt64}
    (hid : (fineIds cfg.save cs).use uniqueID) (addresses : List PinAddress) :
    ∀ sn : Seen, (∀ p ∈ addresses, p.IdsKnown cfg.save) →
      ∀ c ∈ (cfg.pinLoop active uniqueID sn addresses).2, (fineIds cfg.save cs).Call c := by
  induction addresses with
  | nil => intro sn _ c hc; cases hc
  | cons p rest ih =>
      intro sn hknown c hc
      have hp := hknown p (List.mem_cons_self ..)
      have hrest := fun sn => ih sn fun p' hp' => hknown p' (List.mem_cons_of_mem _ hp')
      cases p with
      | touched address isWritten =>
          unfold WrapperConfig.pinLoop at hc
          split at hc
          · cases hc
          · exact hrest sn c hc
          next sn' _ =>
            rcases List.mem_cons.mp hc with rfl | hc
            · exact ⟨hp, hid⟩
            · exact hrest sn' c hc
      | malloc address size =>
          rcases List.mem_cons.mp hc with rfl | hc
          · exact hid hp
          · exact hrest sn c hc
      | free address =>
          rcases List.mem_cons.mp hc with rfl | hc
          · trivial
          · exact hrest sn c hc

/-- The three wrappers of an allocation. -/
theorem known_allocWrapper (hstack : cfg.save.disableCallstack = false)
    (hrec : RecordsIssued w.callstacks) (id : UInt64) {traceArg : Option Trace}
    (htrace : traceArg ≠ none) {table : UInt64 → List Texas.Call}
    (htable : ∀ ids : Ids, ∀ uniqueID, ids.origin uniqueID → ∀ c ∈ table uniqueID, ids.Call c) :
    Issues w.callstacks (cfg.allocWrapper w id traceArg table).1.callstacks
      ∧ ∀ c ∈ (cfg.allocWrapper w id traceArg table).2,
        (fineIds cfg.save (cfg.allocWrapper w id traceArg table).1.callstacks).Call c := by
  obtain ⟨hissues, hid⟩ := allocID_issued hstack hrec id htrace
  exact ⟨hissues, htable _ _ hid⟩

/-- The wrappers of a load and of a store. -/
theorem known_accessWrapper (hstack : cfg.save.disableCallstack = false)
    (hrec : RecordsIssued w.callstacks) (id : UInt64) (ptr : Addr) (rw : Rw)
    {traceArg : Option Trace} (htrace : traceArg ≠ none) {addresses : List Addr}
    (hne : ∀ p ∈ addresses, p ≠ maxAddr) :
    Issues w.callstacks (cfg.accessWrapper w id ptr rw traceArg addresses).1.callstacks
      ∧ ∀ c ∈ (cfg.accessWrapper w id ptr rw traceArg addresses).2,
        (fineIds cfg.save
          (cfg.accessWrapper w id ptr rw traceArg addresses).1.callstacks).Call c := by
  unfold WrapperConfig.accessWrapper
  split
  · exact ⟨⟨hrec, fun _ hid => hid⟩, fun c hc => absurd hc List.not_mem_nil⟩
  · exact ⟨⟨hrec, fun _ hid => hid⟩, fun c hc => absurd hc List.not_mem_nil⟩
  · obtain ⟨hissues, hid⟩ := useID_issued hstack hrec id htrace
    refine ⟨hissues, fun c hc => ?_⟩
    obtain ⟨p, hp, rfl⟩ := List.mem_map.mp hc
    exact ⟨hne p hp, hid⟩

/-- One wrapper. -/
theorem known_body (hstack : cfg.save.disableCallstack = false) (hrec : RecordsIssued w.callstacks)
    {c : WrapperCall} (htrace : c.traceArg? ≠ some none) (hknown : c.IdsKnown cfg.save) :
    Issues w.callstacks (cfg.body w c).1.callstacks
      ∧ ∀ call ∈ (cfg.body w c).2, (fineIds cfg.save (cfg.body w c).1.callstacks).Call call := by
  -- a wrapper that saves nothing and brings no id
  have hidle : ∀ (w' : Wrappers) (cs : List Texas.Call), w'.callstacks = w.callstacks →
      (∀ ids : Ids, ∀ c ∈ cs, ids.Call c) → Issues w.callstacks w'.callstacks
        ∧ ∀ c ∈ cs, (fineIds cfg.save w'.callstacks).Call c := by
    intro w' cs hcs hcalls
    rw [hcs]
    exact ⟨⟨hrec, fun _ hid => hid⟩, hcalls _⟩
  have hsingle : ∀ call : Texas.Call, (∀ ids : Ids, ids.Call call) →
      ∀ ids : Ids, ∀ c ∈ [call], ids.Call c := by
    intro call h ids c hc
    rw [List.mem_singleton.mp hc]
    exact h ids
  -- the trace of a call that takes one is not null
  have hsome : ∀ {traceArg : Option Trace}, c.traceArg? = some traceArg → traceArg ≠ none := by
    intro traceArg harg hnone
    rw [hnone] at harg
    exact htrace harg
  cases c with
  | caratStateAlloc id address length traceArg =>
      apply known_allocWrapper hstack hrec id (hsome rfl)
      intro ids uniqueID hid c hc
      rw [List.mem_singleton.mp hc]
      exact hid
  | caratStateCalloc id address length sizeOfEntry traceArg =>
      apply known_allocWrapper hstack hrec id (hsome rfl)
      intro ids uniqueID hid c hc
      rw [List.mem_singleton.mp hc]
      exact hid
  | caratStateRealloc id address newAddress length traceArg =>
      apply known_allocWrapper hstack hrec id (hsome rfl)
      intro ids uniqueID hid c hc
      rcases List.mem_cons.mp hc with rfl | hc
      · trivial
      · rw [List.mem_singleton.mp hc]
        exact hid
  | texasAddToStateWithInfo id ptr sizeInBytes sizeElementInBytes traceArg =>
      exact known_accessWrapper hstack hrec id ptr .write (hsome rfl) hknown
  | texasAddToStateLoad id ptr traceArg =>
      apply known_accessWrapper hstack hrec id ptr .read (hsome rfl)
      intro p hp
      rw [List.mem_singleton.mp hp]
      exact hknown
  | setDirectState id startPtr startIndVar stopIndVar elementBitwidth stateToSet traceArg =>
      simp only [WrapperConfig.body, WrapperConfig.setDirectState]
      split
      · exact hidle w [] rfl fun ids c hc => absurd hc List.not_mem_nil
      · obtain ⟨hissues, hid⟩ := useID_issued hstack hrec id (hsome rfl)
        refine ⟨hissues, fun c hc => ?_⟩
        rw [List.mem_singleton.mp hc]
        exact ⟨hknown, hid⟩
  | texasAddMultiToStatePin id addresses traceArg =>
      obtain ⟨hissues, hid⟩ := useID_issued hstack hrec id (hsome rfl)
      exact ⟨hissues, pinLoop_known hid addresses w.seen hknown⟩
  | caratStateRemoveFromAllocationTable address =>
      exact hidle _ _ rfl (hsingle _ fun _ => trivial)
  | caratAddToEscapeTable ptr => exact hidle _ _ rfl (hsingle _ fun _ => trivial)
  | caratGetState funcName lineNum => exact hidle _ _ rfl (hsingle _ fun _ => trivial)
  | caratReportState stateID => exact hidle _ _ rfl (hsingle _ fun _ => trivial)
  | endStateInvocation stateID => exact hidle _ _ rfl (hsingle _ fun _ => trivial)
  | findCycleInAllocationMap sync =>
      apply hidle _ _ rfl
      intro ids c hc
      unfold WrapperConfig.body at hc
      cases htc : cfg.options.trackCycles with
      | false =>
          simp only [WrapperConfig.findCycleInAllocationMapWrapper, htc] at hc
          cases hc
      | true =>
          simp only [WrapperConfig.findCycleInAllocationMapWrapper, htc] at hc
          rw [List.mem_singleton.mp hc]
          trivial

/-- A whole run of wrappers. -/
theorem known_calls (hstack : cfg.save.disableCallstack = false) (cs : List WrapperCall) :
    ∀ w : Wrappers, RecordsIssued w.callstacks → (∀ c ∈ cs, c.traceArg? ≠ some none) →
      (∀ c ∈ cs, c.IdsKnown cfg.save) →
      Issues w.callstacks (cfg.calls w cs).1.callstacks
        ∧ ∀ call ∈ (cfg.calls w cs).2, (fineIds cfg.save (cfg.calls w cs).1.callstacks).Call call := by
  induction cs with
  | nil =>
      intro w hrec _ _
      exact ⟨⟨hrec, fun _ hid => hid⟩, fun c hc => absurd hc List.not_mem_nil⟩
  | cons c cs ih =>
      intro w hrec htrace hknown
      obtain ⟨hissues, hcalls⟩ := known_body hstack hrec (htrace c (List.mem_cons_self ..))
        (hknown c (List.mem_cons_self ..))
      obtain ⟨hissues', hrest⟩ := ih (cfg.call w c).1 hissues.records
        (fun c' hc' => htrace c' (List.mem_cons_of_mem _ hc'))
        (fun c' hc' => hknown c' (List.mem_cons_of_mem _ hc'))
      refine ⟨hissues.trans hissues', fun call hcall => ?_⟩
      rcases List.mem_append.mp hcall with hcall | hcall
      · exact hissues'.call (hcalls call hcall)
      · exact hrest call hcall

end Wrappers

-- =============================================================== whole runs

/-- The program a run of wrappers is to the runtime. -/
def WrapperConfig.program (cfg : WrapperConfig) (mem : Addr → UInt64) (cs : List WrapperCall) :
    Program := ⟨cfg.options, mem, (cfg.calls Wrappers.init cs).2⟩

/-- The call stacks saved by its end. -/
def WrapperConfig.saved (cfg : WrapperConfig) (cs : List WrapperCall) : Callstacks :=
  (cfg.calls Wrappers.init cs).1.callstacks

theorem sameOrigins_foldl_commitState (ss : List StateId) :
    ∀ rt : Runtime, SameOrigins rt (ss.foldl commitState rt) := by
  induction ss with
  | nil => intro rt a; rfl
  | cons s ss ih => exact fun rt => ih _

theorem sameOrigins_reportStatistics (env : Env) (stateMap : List StateId) (rt : Runtime) :
    SameOrigins rt (reportStatistics env stateMap rt) := by
  have hcommit := sameOrigins_foldl_commitStateInfo env.tree rt.allocationMap.objects rt
  exact hcommit.trans (sameOrigins_foldl_commitState stateMap _)

/-- A use that is recorded is an entry's id. -/
theorem records_use {env : Env} {rt : Runtime} {e : ShadowEntry} {a : AllocId} {s : StateId}
    {id : UInt64} (h : Records env rt e a s (.use id)) :
    e.operation.recording = true ∧ e.information = id := by
  have haccess : AccessItem rt e a (.use id) → e.information = id := by
    intro hitem
    rcases hitem with ⟨c, -, heq⟩ | ⟨-, heq⟩
    · cases heq
    · injection heq with heq
      exact heq.symm
  unfold Records at h
  split at h
  next hop => exact ⟨by rw [hop]; rfl, haccess h.2.2.2⟩
  next hop => exact ⟨by rw [hop]; rfl, haccess h.2.2.2⟩
  next hop => exact ⟨by rw [hop]; rfl, haccess h.2.2.2⟩
  next hop =>
    refine ⟨by rw [hop]; rfl, ?_⟩
    rcases h.2.2 with heq | heq | heq
    · cases heq
    · cases heq
    · injection heq with heq
      exact heq.symm
  · exact h.elim

/-- A stream of known entries: everything looked up after its report is
fine. -/
theorem looksUp_of_known {o : SaveOptions} {cs : Callstacks} {env : Env} {stateMap : List StateId}
    {rt : Runtime} {es : List ShadowEntry} (hrt : rt.forget = processEntries env texasInit es)
    (hes : ∀ e ∈ es, KnownEntry (Issued cs) e
      ∧ (e.operation.recording = true → (fineIds o cs).use e.information))
    {env' : Env} {a : AllocId} {s : StateId} {id : UInt64}
    (hsaved : SavedIn (reportStatistics env' stateMap rt) stateMap a s)
    (hlook : LooksUp o (reportStatistics env' stateMap rt) a s id) : Issued cs id := by
  have hinv := originInv_run env es originInv_init fun e he => (hes e he).1
  rw [← hrt] at hinv
  rw [savedIn_iff] at hsaved
  rcases hlook with rfl | ⟨huse, ids, hids, hmem⟩
  · rw [sameOrigins_reportStatistics env' stateMap rt a]
    -- an object in a Final set has a key or a record, so it is no sentinel
    have hpos : 0 < a ∧ a < rt.numAllocs := by
      rcases (finalKey_reportStatistics env' rt a hsaved.1).2 hsaved.2 with hkey | hrec
      · exact hinv.key a s hkey
      · refine ⟨Nat.pos_of_ne_zero fun hzero => ?_, hinv.record_lt a s hrec⟩
        subst hzero
        exact hinv.sentinel_record s hrec
    exact hinv.origin a hpos.1 hpos.2
  · have hfinal : Final (reportStatistics env' stateMap rt) a s (.use id) := ⟨ids, hids, hmem⟩
    rw [← final_reportStatistics_forget, hrt,
      final_reportStatistics (tableInv_run env es tableInv_init) hsaved.1,
      settled_iff_recorded] at hfinal
    obtain ⟨pre, e, post, heq, hrec, -⟩ := hfinal
    obtain ⟨hop, hid⟩ := records_use hrec
    have he := (hes e (by rw [heq]; simp)).2 hop huse
    rw [hid] at he
    exact he

/-- With call stacks enabled, in every run in which PIN reports no block
while uses are disabled and no access is to the highest address, every
id that saving looks up was issued: no lookup aborts. -/
theorem savedIds_issued (cfg : WrapperConfig) (mem : Addr → UInt64) (cs : List WrapperCall)
    (su : Setup) (hstack : cfg.save.disableCallstack = false)
    (htrace : ∀ c ∈ cs, c.traceArg? ≠ some none) (hW : 1 ≤ su.window)
    (hfin : (su.run (cfg.program mem cs)).Finished (su.config (cfg.program mem cs)))
    (hpast : (su.run (cfg.program mem cs)).InertPast) (hknown : ∀ c ∈ cs, c.IdsKnown cfg.save) :
    (∀ a s id, SavedIn (su.report (cfg.program mem cs)) (cfg.program mem cs).stateMap.ids a s →
        LooksUp cfg.save (su.report (cfg.program mem cs)) a s id → Issued (cfg.saved cs) id)
      ∧ ∀ id, printJSONWrapper cfg.save (cfg.saved cs) (su.run (cfg.program mem cs)).rt
        (su.config (cfg.program mem cs)).env (cfg.program mem cs).stateMap
          ≠ .error (.idNotFound id) := by
  have hrun := forget_run hW hfin hpast
  have hcalls := (known_calls hstack cs Wrappers.init recordsIssued_init htrace hknown).2
  have hwrites := Ids.writes_calls cfg.options.trackCycles _ Producer.init hcalls
  have hes : ∀ e ∈ idealStream (cfg.program mem cs).env Sweep.init
      (divide su.window [] (cfg.program mem cs).events), KnownEntry (Issued (cfg.saved cs)) e
        ∧ (e.operation.recording = true →
          (fineIds cfg.save (cfg.saved cs)).use e.information) := by
    intro e he
    obtain ⟨w, hw, ptrs, cl, rfl⟩ := mem_idealStream _ he
    rw [(cfg.program mem cs).flatten_divide] at hw
    exact (hwrites w hw).cleaned _ ptrs cl
  have hissued : ∀ a s id,
      SavedIn (su.report (cfg.program mem cs)) (cfg.program mem cs).stateMap.ids a s →
        LooksUp cfg.save (su.report (cfg.program mem cs)) a s id → Issued (cfg.saved cs) id :=
    fun a s id => looksUp_of_known hrun hes
  refine ⟨hissued, fun id herr => ?_⟩
  obtain ⟨a, s, offsets, hsaved, herr⟩ := printJSONWrapper_error herr
  rcases getAllocationToSave_error herr with ⟨id', hlook, hfail⟩ | ⟨hno, -⟩
  · have hsome := hissued a s id' hsaved hlook
    unfold Issued at hsome
    rw [(getTraceAndStaticID_error hfail).2.2] at hsome
    cases hsome
  · cases hno

/-- A call stack of one frame. -/
def oneFrame : Trace := Trace.new (Stack.ofFrames [5] (by decide) (by decide))

/-- A block is allocated and read in a ROI, with uses. -/
theorem savedIds_issued_load :
    let cfg : WrapperConfig := ⟨id, ⟨false, false⟩, Options.default, true⟩
    let cs : List WrapperCall := [.caratStateAlloc 1 100 8 (some oneFrame), .caratGetState "f" 1,
      .texasAddToStateLoad 7 100 (some oneFrame), .caratReportState 0]
    let pr := cfg.program (fun _ => 0) cs
    let su := Setup.alternating 4 false 20
    SavedIn (su.report pr) pr.stateMap.ids 1 0
      ∧ ∀ a s id, SavedIn (su.report pr) pr.stateMap.ids a s →
        LooksUp cfg.save (su.report pr) a s id → Issued (cfg.saved cs) id := by
  intro cfg cs pr su
  refine ⟨⟨by decide +kernel, .input, {0}, by decide +kernel⟩, ?_⟩
  refine (savedIds_issued cfg (fun _ => 0) cs su rfl ?_ (by decide) (by decide +kernel)
    (by decide +kernel) ?_).1
  · intro c hc
    simp only [cs, List.mem_cons, List.not_mem_nil, or_false] at hc
    rcases hc with rfl | rfl | rfl | rfl
    · simp [WrapperCall.traceArg?]
    · simp [WrapperCall.traceArg?]
    · simp [WrapperCall.traceArg?]
    · simp [WrapperCall.traceArg?]
  · intro c hc
    simp only [cs, List.mem_cons, List.not_mem_nil, or_false] at hc
    rcases hc with rfl | rfl | rfl | rfl
    · trivial
    · trivial
    · show (100 : Addr) ≠ maxAddr
      decide
    · trivial

/-- Uses are disabled and PIN reports a block that is written in a ROI:
its origin is 0, which was never issued, and saving aborts on it. -/
theorem not_issued_pinMalloc :
    let cfg : WrapperConfig := ⟨id, ⟨false, true⟩, Options.default, true⟩
    let cs : List WrapperCall := [.caratStateAlloc 1 200 8 (some oneFrame), .caratGetState "f" 1,
      .texasAddMultiToStatePin 7 [.malloc 100 8, .touched 100 true] (some oneFrame),
      .caratReportState 0]
    let pr := cfg.program (fun _ => 0) cs
    let su := Setup.alternating 5 false 20
    (su.run pr).Finished (su.config pr) ∧ (su.run pr).InertPast
      ∧ SavedIn (su.report pr) pr.stateMap.ids 2 0
      ∧ LooksUp cfg.save (su.report pr) 2 0 0
      ∧ ¬ Issued (cfg.saved cs) 0
      ∧ getTraceAndStaticID cfg.save (cfg.saved cs) 0 = .error (.idNotFound 0) := by
  intro cfg cs pr su
  have hnone : ((cfg.saved cs).dynamicTraces 0).isNone = true := by decide +kernel
  refine ⟨by decide +kernel, by decide +kernel, ⟨by decide +kernel, .output, {0}, by decide +kernel⟩,
    Or.inl (by decide +kernel), ?_, ?_⟩
  · unfold Issued
    rw [Option.isNone_iff_eq_none.mp hnone]
    simp
  · unfold getTraceAndStaticID
    rw [Option.isNone_iff_eq_none.mp hnone]
    rfl

end Carmot.Wrapper
