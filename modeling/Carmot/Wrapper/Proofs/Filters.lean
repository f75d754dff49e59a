/-
What the sets of seen addresses filter out.

The wrappers of a load and of a store return early for an address that
is in the loads or stores set. The sets are keyed by the first address
alone, shared by all ROIs and cleared when any of them ends, so an
early return may leave out an access the runtime has not seen: the
first of an inner ROI, one to more elements than before, or one to
another block at the same address.

Where every early return leaves out repeated accesses only, the pushed
writes are the unfiltered ones, thinned (`filtered_calls`), and the
Final sets are the same (`final_unfiltered`).
-/
import Mathlib.Algebra.Group.Nat.Defs
import Carmot.Texas.Proofs.Agreement
import Carmot.Texas.Proofs.Thinned
import Carmot.Wrapper.Proofs.Callstack
import Carmot.Wrapper.Proofs.SavedIds

namespace Carmot.Wrapper

open Carmot.Texas
open Carmot.Lib

-- ============================================================== the calls

/-- One call of the runtime in both runs; the ids may differ. -/
inductive SameCall (R : UInt64 → UInt64 → Prop) : Call → Call → Prop
  | add (address : Addr) (length : UInt64) {o o' : UInt64} (h : R o o') :
      SameCall R (.addToAllocationTable address length o) (.addToAllocationTable address length o')
  | remove (address : Addr) :
      SameCall R (.removeFromAllocationTable address) (.removeFromAllocationTable address)
  | access (p : Addr) (rw : Rw) (id id' : UInt64) :
      SameCall R (.addToState p rw id) (.addToState p rw id')
  | enter (funcName : String) (lineNum : UInt64) :
      SameCall R (.getState funcName lineNum) (.getState funcName lineNum)
  | leave (stateID : StateId) : SameCall R (.endState stateID) (.endState stateID)

section SameCalls

variable {R : UInt64 → UInt64 → Prop} (trackCycles : Bool)

/-- The runtime's globals do not depend on the ids, and neither do the
writes otherwise. -/
theorem SameCall.call {c c' : Call} (h : SameCall R c c') (p : Producer) :
    (p.call trackCycles c).1 = (p.call trackCycles c').1
      ∧ List.Forall₂ (SameWrite R) (writesOf (p.call trackCycles c).2)
        (writesOf (p.call trackCycles c').2) := by
  cases h with
  | add address length h => exact ⟨rfl, .cons (.add address length p.activeState h) .nil⟩
  | remove address => exact ⟨rfl, .cons (.free address p.activeState) .nil⟩
  | access q rw id id' =>
      refine ⟨rfl, ?_⟩
      unfold Producer.call
      cases p.activeState with
      | none => exact .nil
      | some s => exact .cons (.access rw q id id') .nil
  | enter funcName lineNum => exact ⟨rfl, .cons (.enter _) .nil⟩
  | leave stateID =>
      refine ⟨rfl, ?_⟩
      unfold Producer.call
      dsimp only
      split
      · exact .nil
      next s _ => exact .cons (.leave s) .nil

theorem sameCalls_calls {cs cs' : List Call} (h : List.Forall₂ (SameCall R) cs cs') :
    ∀ p : Producer, (p.calls trackCycles cs).1 = (p.calls trackCycles cs').1
      ∧ List.Forall₂ (SameWrite R) (writesOf (p.calls trackCycles cs).2)
        (writesOf (p.calls trackCycles cs').2) := by
  induction h with
  | nil => exact fun p => ⟨rfl, .nil⟩
  | @cons c c' cs cs' hc _ ih =>
      intro p
      obtain ⟨hp, hw⟩ := hc.call trackCycles p
      obtain ⟨hps, hws⟩ := ih (p.call trackCycles c).1
      rw [writesOf_calls_cons, writesOf_calls_cons, ← hp]
      refine ⟨?_, List.rel_append hw hws⟩
      show ((p.call trackCycles c).1.calls trackCycles cs).1
        = ((p.call trackCycles c').1.calls trackCycles cs').1
      rw [hps, hp]

/-- The accesses of one wrapper. -/
theorem calls_addToState {p : Producer} {s : StateId} (hs : p.activeState = some s) (rw : Rw)
    (id : UInt64) (ps : List Addr) :
    (p.calls trackCycles (ps.map fun q => .addToState q rw id)).1 = p
      ∧ writesOf (p.calls trackCycles (ps.map fun q => .addToState q rw id)).2
        = ps.map fun q => .access rw q id := by
  induction ps with
  | nil => exact ⟨rfl, rfl⟩
  | cons q ps ih =>
      have hone : p.call trackCycles (.addToState q rw id) = (p, [.write (.access rw q id)]) := by
        unfold Producer.call
        rw [hs]
      rw [List.map_cons, writesOf_calls_cons, hone, ih.2]
      refine ⟨?_, rfl⟩
      show ((p.call trackCycles (.addToState q rw id)).1.calls trackCycles _).1 = p
      rw [hone]
      exact ih.1

end SameCalls

-- ================================================================ the ids

/-- The stack a wrapper saves for its id and its trace argument. -/
def stackOf (id : UInt64) (traceArg : Option Trace) : List SaveCall :=
  traceArg.toList.map (id, ·)

/-- The ids of one stack after both runs have saved it, or of none. -/
def Paired (o : SaveOptions) (saved₀ saved : List SaveCall) (id₀ id : UInt64) : Prop :=
  if o.disableCallstack then id₀ = id
  else (id₀ = 0 ∧ id = 0) ∨ ∃ c, c ∈ saved₀ ∧ c ∈ saved
    ∧ id₀ = UInt64.ofNat (rankOf callKey saved₀ c + 1)
    ∧ id = UInt64.ofNat (rankOf callKey saved c + 1)

section Ids

variable {o : SaveOptions} {saved₀ saved : List SaveCall}

/-- Stacks keep their ids. -/
theorem Paired.mono {id₀ id : UInt64} (h : Paired o saved₀ saved id₀ id) (new₀ new : List SaveCall) :
    Paired o (saved₀ ++ new₀) (saved ++ new) id₀ id := by
  unfold Paired at h ⊢
  split
  next hdis =>
    rw [if_pos hdis] at h
    exact h
  next hdis =>
    rw [if_neg hdis] at h
    rcases h with h | ⟨c, hc₀, hc, h₀, h⟩
    · exact Or.inl h
    · refine Or.inr ⟨c, List.mem_append_left _ hc₀, List.mem_append_left _ hc, ?_, ?_⟩
      · rw [rankOf_append callKey hc₀]
        exact h₀
      · rw [rankOf_append callKey hc]
        exact h

theorem ofNat_succ_ne_zero {i : Nat} (h : i + 1 < 2 ^ 64) : UInt64.ofNat (i + 1) ≠ 0 := by
  intro hzero
  have hmod := congrArg UInt64.toNat hzero
  rw [UInt64.toNat_ofNat'] at hmod
  simp only [UInt64.toNat_zero] at hmod
  omega

/-- With fewer stacks than ids an id stands for its stack, in both runs. -/
theorem pairing_paired (h₀ : (firsts callKey saved₀).length < 2 ^ 64)
    (h : (firsts callKey saved).length < 2 ^ 64) : Pairing (Paired o saved₀ saved) := by
  intro a a' b b' ha hb
  unfold Paired at ha hb
  by_cases hdis : o.disableCallstack = true
  · rw [if_pos hdis] at ha hb
    rw [ha, hb]
  · rw [if_neg hdis] at ha hb
    have hsome : ∀ {saved : List SaveCall} {c : SaveCall}, (firsts callKey saved).length < 2 ^ 64 →
        c ∈ saved → rankOf callKey saved c + 1 < 2 ^ 64 := by
      intro saved c hlen hc
      have := rankOf_lt callKey hc
      omega
    rcases ha with ⟨rfl, rfl⟩ | ⟨c, hc₀, hc, rfl, rfl⟩
    · rcases hb with ⟨rfl, rfl⟩ | ⟨d, hd₀, hd, rfl, rfl⟩
      · exact Iff.rfl
      · have hne₀ := ofNat_succ_ne_zero (hsome h₀ hd₀)
        have hne := ofNat_succ_ne_zero (hsome h hd)
        exact ⟨fun heq => absurd heq.symm hne₀, fun heq => absurd heq.symm hne⟩
    · rcases hb with ⟨rfl, rfl⟩ | ⟨d, hd₀, hd, rfl, rfl⟩
      · have hne₀ := ofNat_succ_ne_zero (hsome h₀ hc₀)
        have hne := ofNat_succ_ne_zero (hsome h hc)
        exact ⟨fun heq => absurd heq hne₀, fun heq => absurd heq hne⟩
      · rw [id_eq_iff (Nat.le_of_lt h₀) hc₀ hd₀, id_eq_iff (Nat.le_of_lt h) hc hd]

/-- Fewer stacks handed over, fewer saved. -/
theorem firsts_lt_of_subset {args : List SaveCall} (hsub : saved ⊆ args) {n : Nat}
    (h : (args.map callKey).toFinset.card < n) : (firsts callKey saved).length < n := by
  rw [← card_keys]
  apply Nat.lt_of_le_of_lt (Finset.card_le_card ?_) h
  intro k hk
  rw [List.mem_toFinset] at hk ⊢
  exact List.map_subset callKey hsub hk

end Ids

section Saving

variable {cfg : WrapperConfig}

/-- The id of an allocation, after the stacks saved before. -/
def idOf (o : SaveOptions) (saved : List SaveCall) (id : UInt64) (traceArg : Option Trace) : UInt64 :=
  if o.disableCallstack then id
  else match traceArg with
    | none => 0
    | some trace => UInt64.ofNat (rankOf callKey saved (id, trace) + 1)

/-- The stacks an allocation saves. -/
def newStacks (o : SaveOptions) (id : UInt64) (traceArg : Option Trace) : List SaveCall :=
  if o.disableCallstack then [] else stackOf id traceArg

theorem allocID_spec (hinj : Function.Injective cfg.uint64Hash) {saved : List SaveCall}
    {cs : Callstacks} (h : CallstacksInv cfg.uint64Hash saved cs) (id : UInt64)
    (traceArg : Option Trace) :
    CallstacksInv cfg.uint64Hash (saved ++ newStacks cfg.save id traceArg)
        (cfg.allocID cs id traceArg).1
      ∧ (cfg.allocID cs id traceArg).2
        = idOf cfg.save (saved ++ newStacks cfg.save id traceArg) id traceArg := by
  unfold WrapperConfig.allocID newStacks idOf
  cases cfg.save.disableCallstack with
  | true =>
      rw [if_pos rfl, if_pos rfl, if_pos rfl, List.append_nil]
      exact ⟨h, rfl⟩
  | false =>
      cases traceArg with
      | none =>
          refine ⟨?_, rfl⟩
          show CallstacksInv cfg.uint64Hash (saved ++ []) cs
          rw [List.append_nil]
          exact h
      | some trace => exact h.step hinj (id, trace)

/-- Both runs give an allocation paired ids. -/
theorem paired_idOf (o : SaveOptions) (saved₀ saved : List SaveCall) (id : UInt64)
    (traceArg : Option Trace) :
    Paired o (saved₀ ++ newStacks o id traceArg) (saved ++ newStacks o id traceArg)
      (idOf o (saved₀ ++ newStacks o id traceArg) id traceArg)
      (idOf o (saved ++ newStacks o id traceArg) id traceArg) := by
  unfold Paired idOf newStacks
  cases o.disableCallstack with
  | true => rfl
  | false =>
      cases traceArg with
      | none => exact Or.inl ⟨rfl, rfl⟩
      | some trace =>
          refine Or.inr ⟨(id, trace), ?_, ?_, rfl, rfl⟩
          · exact List.mem_append_right _ (List.mem_singleton.mpr rfl)
          · exact List.mem_append_right _ (List.mem_singleton.mpr rfl)

/-- A use saves the same stack, or none. -/
theorem useID_spec (hinj : Function.Injective cfg.uint64Hash) {saved : List SaveCall}
    {cs : Callstacks} (h : CallstacksInv cfg.uint64Hash saved cs) (id : UInt64)
    (traceArg : Option Trace) :
    ∃ new, new ⊆ stackOf id traceArg
      ∧ CallstacksInv cfg.uint64Hash (saved ++ new) (cfg.useID cs id traceArg).1 := by
  unfold WrapperConfig.useID
  split
  · refine ⟨[], List.nil_subset _, ?_⟩
    rw [List.append_nil]
    exact h
  · refine ⟨newStacks cfg.save id traceArg, ?_, (allocID_spec hinj h id traceArg).1⟩
    unfold newStacks
    split
    · exact List.nil_subset _
    · exact List.Subset.refl _

end Saving

-- =========================================================== the two runs

/-- The wrappers without the early returns. -/
def WrapperConfig.unfiltered (cfg : WrapperConfig) : WrapperConfig := { cfg with earlyReturns := false }

/-- The globals after some calls. -/
def WrapperConfig.after (cfg : WrapperConfig) (cs : List WrapperCall) : Wrappers :=
  (cfg.calls Wrappers.init cs).1

/-- What the calls have pushed. -/
def WrapperConfig.pushed (cfg : WrapperConfig) (cs : List WrapperCall) : List SlotWrite :=
  writesOf (Producer.init.calls cfg.options.trackCycles (cfg.calls Wrappers.init cs).2).2

/-- Allocations, frees, loads, stores, and the begins and ends of
ROIs. -/
def WrapperCall.plain : WrapperCall → Bool
  | .caratStateAlloc .. | .caratStateCalloc .. | .caratStateRealloc ..
  | .caratStateRemoveFromAllocationTable .. | .texasAddToStateWithInfo ..
  | .texasAddToStateLoad .. | .caratGetState .. | .caratReportState .. => true
  | _ => false

/-- The stack a call has to save. -/
def WrapperCall.saveArgs : WrapperCall → List SaveCall
  | .caratStateAlloc id _ _ traceArg | .caratStateCalloc id _ _ _ traceArg
  | .caratStateRealloc id _ _ _ traceArg | .texasAddToStateWithInfo id _ _ _ traceArg
  | .texasAddToStateLoad id _ traceArg => stackOf id traceArg
  | _ => []

/-- A load or a store: the address that is looked up, the kind, and the
addresses it is recorded under. -/
def WrapperCall.touch? : WrapperCall → Option (Addr × Rw × List Addr)
  | .texasAddToStateWithInfo _ ptr sizeInBytes sizeElementInBytes _ =>
      some (ptr, .write, elements ptr sizeInBytes sizeElementInBytes)
  | .texasAddToStateLoad _ ptr _ => some (ptr, .read, [ptr])
  | _ => none

/-- Every early return leaves out repeated accesses only. -/
def WrapperConfig.OmitsRepeats (cfg : WrapperConfig) (env : Env) (cs : List WrapperCall) : Prop :=
  ∀ pre c post ptr rw addresses, cs = pre ++ c :: post → c.touch? = some (ptr, rw, addresses) →
    (cfg.after pre).producer.activeState ≠ none → cfg.checkSeen (cfg.after pre).seen ptr rw = none →
    ∀ p ∈ addresses, Repeats env (cfg.pushed pre) rw p

/-- The run without the early returns and the run with them. -/
structure Filtered (cfg : WrapperConfig) (env : Env) (args saved₀ saved : List SaveCall)
    (w₀ w : Wrappers) (ws₀ ws : List SlotWrite) : Prop where
  producer : w₀.producer = w.producer
  records₀ : CallstacksInv cfg.uint64Hash saved₀ w₀.callstacks
  records : CallstacksInv cfg.uint64Hash saved w.callstacks
  known₀ : saved₀ ⊆ args
  known : saved ⊆ args
  thinned : Thinned env (Paired cfg.save saved₀ saved) ws₀ ws

section Runs

variable {cfg : WrapperConfig} {env : Env} {args saved₀ saved : List SaveCall}
  {w₀ w : Wrappers} {ws₀ ws : List SlotWrite}

/-- The globals after a wrapper's calls of the runtime. -/
def WrapperConfig.makes (cfg : WrapperConfig) (b : Wrappers × List Call) : Wrappers :=
  { b.1 with producer := (b.1.producer.calls cfg.options.trackCycles b.2).1 }

/-- What they push. -/
def WrapperConfig.pushes (cfg : WrapperConfig) (b : Wrappers × List Call) : List SlotWrite :=
  writesOf (b.1.producer.calls cfg.options.trackCycles b.2).2

theorem calls_concat (cs : List WrapperCall) (c : WrapperCall) :
    ∀ w : Wrappers, cfg.calls w (cs ++ [c])
      = ((cfg.call (cfg.calls w cs).1 c).1, (cfg.calls w cs).2 ++ (cfg.call (cfg.calls w cs).1 c).2) := by
  induction cs with
  | nil =>
      intro w
      simp [WrapperConfig.calls]
  | cons c' cs ih =>
      intro w
      simp only [List.cons_append, WrapperConfig.calls, ih, List.append_assoc]

/-- No wrapper but through its calls moves the runtime's globals. -/
theorem producer_body (w : Wrappers) (c : WrapperCall) : (cfg.body w c).1.producer = w.producer := by
  have haccess : ∀ id ptr rw traceArg addresses,
      (cfg.accessWrapper w id ptr rw traceArg addresses).1.producer = w.producer := by
    intro id ptr rw traceArg addresses
    unfold WrapperConfig.accessWrapper
    split
    · rfl
    · rfl
    · rfl
  cases c with
  | texasAddToStateWithInfo id ptr sizeInBytes sizeElementInBytes traceArg => exact haccess ..
  | texasAddToStateLoad id ptr traceArg => exact haccess ..
  | setDirectState id startPtr startIndVar stopIndVar elementBitwidth stateToSet traceArg =>
      simp only [WrapperConfig.body, WrapperConfig.setDirectState]
      split
      · rfl
      · rfl
  | _ => rfl

theorem producer_calls (cs : List WrapperCall) :
    ∀ w : Wrappers, (cfg.calls w cs).1.producer
      = (w.producer.calls cfg.options.trackCycles (cfg.calls w cs).2).1 := by
  induction cs with
  | nil => intro w; rfl
  | cons c cs ih =>
      intro w
      show ((cfg.calls (cfg.call w c).1 cs).1).producer
        = (w.producer.calls cfg.options.trackCycles
          ((cfg.call w c).2 ++ (cfg.calls (cfg.call w c).1 cs).2)).1
      rw [ih, calls_append]
      show ((cfg.makes (cfg.body w c)).producer.calls cfg.options.trackCycles _).1 = _
      unfold WrapperConfig.makes
      rw [producer_body]
      rfl

theorem after_concat (cs : List WrapperCall) (c : WrapperCall) :
    cfg.after (cs ++ [c]) = cfg.makes (cfg.body (cfg.after cs) c) := by
  unfold WrapperConfig.after
  rw [calls_concat]
  rfl

theorem pushed_concat (cs : List WrapperCall) (c : WrapperCall) :
    cfg.pushed (cs ++ [c]) = cfg.pushed cs ++ cfg.pushes (cfg.body (cfg.after cs) c) := by
  unfold WrapperConfig.pushed WrapperConfig.pushes
  rw [calls_concat, calls_append, writesOf_append, producer_body]
  unfold WrapperConfig.after
  rw [producer_calls]
  rfl

section Access

variable {id : UInt64} {ptr : Addr} {rw : Rw} {traceArg : Option Trace} {addresses : List Addr}

theorem accessWrapper_outside (h : w.producer.activeState = none) :
    cfg.accessWrapper w id ptr rw traceArg addresses = (w, []) := by
  unfold WrapperConfig.accessWrapper
  rw [h]

theorem accessWrapper_seen {s : StateId} (h : w.producer.activeState = some s)
    (hseen : cfg.checkSeen w.seen ptr rw = none) :
    cfg.accessWrapper w id ptr rw traceArg addresses = (w, []) := by
  unfold WrapperConfig.accessWrapper
  rw [h, hseen]

theorem accessWrapper_pushes {s : StateId} {sn : Seen} (h : w.producer.activeState = some s)
    (hseen : cfg.checkSeen w.seen ptr rw = some sn) :
    cfg.accessWrapper w id ptr rw traceArg addresses
      = ({ w with callstacks := (cfg.useID w.callstacks id traceArg).1, seen := sn },
        addresses.map fun p => .addToState p rw (cfg.useID w.callstacks id traceArg).2) := by
  unfold WrapperConfig.accessWrapper
  rw [h, hseen]

end Access

/-- A wrapper that makes the same calls in both runs. -/
theorem Filtered.same (h : Filtered cfg env args saved₀ saved w₀ w ws₀ ws) {b₀ b : Wrappers × List Call}
    (hp₀ : b₀.1.producer = w₀.producer) (hp : b.1.producer = w.producer) {new₀ new : List SaveCall}
    (hrec₀ : CallstacksInv cfg.uint64Hash (saved₀ ++ new₀) b₀.1.callstacks)
    (hrec : CallstacksInv cfg.uint64Hash (saved ++ new) b.1.callstacks)
    (hnew₀ : new₀ ⊆ args) (hnew : new ⊆ args)
    (hcalls : List.Forall₂ (SameCall (Paired cfg.save (saved₀ ++ new₀) (saved ++ new))) b₀.2 b.2) :
    Filtered cfg env args (saved₀ ++ new₀) (saved ++ new) (cfg.makes b₀) (cfg.makes b)
      (ws₀ ++ cfg.pushes b₀) (ws ++ cfg.pushes b) := by
  obtain ⟨hprod, hwrites⟩ := sameCalls_calls cfg.options.trackCycles hcalls w.producer
  refine ⟨?_, hrec₀, hrec, List.append_subset.mpr ⟨h.known₀, hnew₀⟩,
    List.append_subset.mpr ⟨h.known, hnew⟩, ?_⟩
  · unfold WrapperConfig.makes
    dsimp only
    rw [hp₀, hp, h.producer, hprod]
  · unfold WrapperConfig.pushes
    rw [hp₀, hp, h.producer]
    exact (h.thinned.mono fun id₀ id hid => hid.mono new₀ new).keeps hwrites

/-- A wrapper that saves nothing and makes one call. -/
theorem Filtered.idle (h : Filtered cfg env args saved₀ saved w₀ w ws₀ ws) {b₀ b : Wrappers × List Call}
    (hp₀ : b₀.1.producer = w₀.producer) (hp : b.1.producer = w.producer)
    (hcs₀ : b₀.1.callstacks = w₀.callstacks) (hcs : b.1.callstacks = w.callstacks)
    (hcalls : ∀ R, List.Forall₂ (SameCall R) b₀.2 b.2) :
    ∃ saved₀' saved', Filtered cfg env args saved₀' saved' (cfg.makes b₀) (cfg.makes b)
      (ws₀ ++ cfg.pushes b₀) (ws ++ cfg.pushes b) := by
  have hrec₀ : CallstacksInv cfg.uint64Hash (saved₀ ++ []) b₀.1.callstacks := by
    rw [List.append_nil, hcs₀]
    exact h.records₀
  have hrec : CallstacksInv cfg.uint64Hash (saved ++ []) b.1.callstacks := by
    rw [List.append_nil, hcs]
    exact h.records
  exact ⟨_, _, h.same hp₀ hp hrec₀ hrec (List.nil_subset _) (List.nil_subset _) (hcalls _)⟩

/-- The three wrappers of an allocation. -/
theorem Filtered.alloc (hinj : Function.Injective cfg.uint64Hash)
    (h : Filtered cfg env args saved₀ saved w₀ w ws₀ ws) {id : UInt64} {traceArg : Option Trace}
    (hargs : stackOf id traceArg ⊆ args) {table : UInt64 → List Call}
    (htable : ∀ (R : UInt64 → UInt64 → Prop) o o', R o o' →
      List.Forall₂ (SameCall R) (table o) (table o')) :
    ∃ saved₀' saved', Filtered cfg env args saved₀' saved'
      (cfg.makes (cfg.unfiltered.allocWrapper w₀ id traceArg table))
      (cfg.makes (cfg.allocWrapper w id traceArg table))
      (ws₀ ++ cfg.pushes (cfg.unfiltered.allocWrapper w₀ id traceArg table))
      (ws ++ cfg.pushes (cfg.allocWrapper w id traceArg table)) := by
  obtain ⟨hrec₀, hid₀⟩ := allocID_spec hinj h.records₀ id traceArg
  obtain ⟨hrec, hid⟩ := allocID_spec hinj h.records id traceArg
  have hnew : newStacks cfg.save id traceArg ⊆ args := by
    unfold newStacks
    split
    · exact List.nil_subset _
    · exact hargs
  refine ⟨_, _, h.same rfl rfl hrec₀ hrec hnew hnew ?_⟩
  apply htable
  show Paired cfg.save _ _ (cfg.allocID w₀.callstacks id traceArg).2
    (cfg.allocID w.callstacks id traceArg).2
  rw [hid₀, hid]
  exact paired_idOf cfg.save saved₀ saved id traceArg

/-- The wrappers of a load and of a store. -/
theorem Filtered.access (hinj : Function.Injective cfg.uint64Hash)
    (h : Filtered cfg env args saved₀ saved w₀ w ws₀ ws) {id : UInt64} {ptr : Addr} {rw : Rw}
    {traceArg : Option Trace} (hargs : stackOf id traceArg ⊆ args) {addresses : List Addr}
    (hrep : w.producer.activeState ≠ none → cfg.checkSeen w.seen ptr rw = none →
      ∀ p ∈ addresses, Repeats env ws rw p) :
    ∃ saved₀' saved', Filtered cfg env args saved₀' saved'
      (cfg.makes (cfg.unfiltered.accessWrapper w₀ id ptr rw traceArg addresses))
      (cfg.makes (cfg.accessWrapper w id ptr rw traceArg addresses))
      (ws₀ ++ cfg.pushes (cfg.unfiltered.accessWrapper w₀ id ptr rw traceArg addresses))
      (ws ++ cfg.pushes (cfg.accessWrapper w id ptr rw traceArg addresses)) := by
  obtain ⟨new₀, hnew₀, hrec₀⟩ := useID_spec hinj h.records₀ id traceArg
  obtain ⟨new, hnew, hrec⟩ := useID_spec hinj h.records id traceArg
  have hseen₀ : ∃ sn, cfg.unfiltered.checkSeen w₀.seen ptr rw = some sn := ⟨_, rfl⟩
  obtain ⟨sn₀, hseen₀⟩ := hseen₀
  cases hactive : w.producer.activeState with
  | none =>
      have hactive₀ : w₀.producer.activeState = none := by rw [h.producer, hactive]
      rw [accessWrapper_outside hactive₀, accessWrapper_outside hactive]
      exact h.idle rfl rfl rfl rfl fun _ => .nil
  | some s =>
      have hactive₀ : w₀.producer.activeState = some s := by rw [h.producer, hactive]
      rw [accessWrapper_pushes hactive₀ hseen₀]
      cases hseen : cfg.checkSeen w.seen ptr rw with
      | some sn =>
          rw [accessWrapper_pushes hactive hseen]
          refine ⟨_, _, h.same rfl rfl hrec₀ hrec (List.Subset.trans hnew₀ hargs)
            (List.Subset.trans hnew hargs) ?_⟩
          rw [List.forall₂_map_left_iff, List.forall₂_map_right_iff, List.forall₂_same]
          exact fun p _ => .access p rw _ _
      | none =>
          rw [accessWrapper_seen hactive hseen]
          obtain ⟨hprod, hwrites⟩ := calls_addToState cfg.options.trackCycles hactive₀ rw
            (cfg.unfiltered.useID w₀.callstacks id traceArg).2 addresses
          refine ⟨saved₀ ++ new₀, saved, ?_, hrec₀, h.records,
            List.append_subset.mpr ⟨h.known₀, List.Subset.trans hnew₀ hargs⟩, h.known, ?_⟩
          · exact hprod.trans h.producer
          · show Thinned env _ (ws₀ ++ writesOf (w₀.producer.calls _ _).2) (ws ++ [])
            rw [hwrites, List.append_nil]
            refine Thinned.drops ?_ _ addresses (hrep (by simp [hactive]) hseen)
            have hmono := h.thinned.mono fun id₀ id hid => Paired.mono hid new₀ []
            rw [List.append_nil] at hmono
            exact hmono

/-- One call of a wrapper in both runs. -/
theorem Filtered.call (hinj : Function.Injective cfg.uint64Hash)
    (h : Filtered cfg env args saved₀ saved w₀ w ws₀ ws) {c : WrapperCall} (hplain : c.plain = true)
    (hargs : c.saveArgs ⊆ args)
    (hrep : ∀ ptr rw addresses, c.touch? = some (ptr, rw, addresses) →
      w.producer.activeState ≠ none → cfg.checkSeen w.seen ptr rw = none →
      ∀ p ∈ addresses, Repeats env ws rw p) :
    ∃ saved₀' saved', Filtered cfg env args saved₀' saved'
      (cfg.makes (cfg.unfiltered.body w₀ c)) (cfg.makes (cfg.body w c))
      (ws₀ ++ cfg.pushes (cfg.unfiltered.body w₀ c)) (ws ++ cfg.pushes (cfg.body w c)) := by
  cases c with
  | caratStateAlloc id address length traceArg =>
      exact h.alloc hinj hargs fun R o o' ho => .cons (.add address length ho) .nil
  | caratStateCalloc id address length sizeOfEntry traceArg =>
      exact h.alloc hinj hargs fun R o o' ho => .cons (.add address (length * sizeOfEntry) ho) .nil
  | caratStateRealloc id address newAddress length traceArg =>
      exact h.alloc hinj hargs fun R o o' ho =>
        .cons (.remove address) (.cons (.add newAddress length ho) .nil)
  | caratStateRemoveFromAllocationTable address =>
      exact h.idle rfl rfl rfl rfl fun _ => .cons (.remove address) .nil
  | texasAddToStateWithInfo id ptr sizeInBytes sizeElementInBytes traceArg =>
      exact h.access hinj hargs (hrep _ _ _ rfl)
  | texasAddToStateLoad id ptr traceArg => exact h.access hinj hargs (hrep _ _ _ rfl)
  | caratGetState funcName lineNum =>
      exact h.idle rfl rfl rfl rfl fun _ => .cons (.enter funcName lineNum) .nil
  | caratReportState stateID =>
      exact h.idle rfl rfl rfl rfl fun _ => .cons (.leave stateID) .nil
  | _ => cases hplain

/-- Whole runs: the pushed writes are the unfiltered ones, thinned. -/
theorem filtered_calls (hinj : Function.Injective cfg.uint64Hash) (cs : List WrapperCall)
    (hplain : ∀ c ∈ cs, c.plain = true) (hargs : ∀ c ∈ cs, c.saveArgs ⊆ args)
    (hrep : cfg.OmitsRepeats env cs) :
    ∃ saved₀ saved, Filtered cfg env args saved₀ saved (cfg.unfiltered.after cs) (cfg.after cs)
      (cfg.unfiltered.pushed cs) (cfg.pushed cs) := by
  induction cs using List.reverseRecOn with
  | nil =>
      exact ⟨[], [], rfl, callstacksInv_init, callstacksInv_init, List.nil_subset _,
        List.nil_subset _, .nil⟩
  | append_singleton cs c ih =>
      have hbefore : cfg.OmitsRepeats env cs := by
        intro pre c' post ptr rw addresses heq
        exact hrep pre c' (post ++ [c]) ptr rw addresses (by rw [heq]; simp)
      obtain ⟨saved₀, saved, h⟩ := ih (fun c' hc' => hplain c' (List.mem_append_left _ hc'))
        (fun c' hc' => hargs c' (List.mem_append_left _ hc')) hbefore
      rw [after_concat, after_concat, pushed_concat, pushed_concat]
      apply h.call hinj (hplain c (by simp)) (hargs c (by simp))
      intro ptr rw addresses htouch
      exact hrep cs c [] ptr rw addresses rfl htouch

end Runs

-- ============================================================ transparency

/-- The Final offsets are those of the run without the early returns, in
every run whose early returns leave out repeated accesses only, whose
stacks are fewer than the ids, and in which, with the early returns and
without, every access has at the end of its batch the class it has at
the end of the run. -/
theorem final_unfiltered (cfg : WrapperConfig) (hinj : Function.Injective cfg.uint64Hash)
    (mem : Addr → UInt64) (cs : List WrapperCall) (hplain : ∀ c ∈ cs, c.plain = true)
    (su su₀ : Setup) (hW : 1 ≤ su.window) (hW₀ : 1 ≤ su₀.window)
    (hfin : (su.run (cfg.program mem cs)).Finished (su.config (cfg.program mem cs)))
    (hpast : (su.run (cfg.program mem cs)).InertPast)
    (hfin₀ : (su₀.run (cfg.unfiltered.program mem cs)).Finished
      (su₀.config (cfg.unfiltered.program mem cs)))
    (hpast₀ : (su₀.run (cfg.unfiltered.program mem cs)).InertPast)
    (hrep : cfg.OmitsRepeats (cfg.program mem cs).env cs)
    (hids : ((cs.flatMap WrapperCall.saveArgs).map callKey).toFinset.card < 2 ^ 64)
    (hclass : (cfg.program mem cs).ClassesLast su.window)
    (hclass₀ : (cfg.unfiltered.program mem cs).ClassesLast su₀.window)
    (a : AllocId) (s : StateId) (hs : s ∈ (cfg.program mem cs).stateMap.ids) (c : StateClass)
    (off : UInt64) :
    Final (su.report (cfg.program mem cs)) a s (.offset c off) ↔
      Final (su₀.report (cfg.unfiltered.program mem cs)) a s (.offset c off) := by
  have hargs : ∀ c ∈ cs, c.saveArgs ⊆ cs.flatMap WrapperCall.saveArgs :=
    fun c hc b hb => List.mem_flatMap.mpr ⟨c, hc, hb⟩
  obtain ⟨saved₀, saved, h⟩ := filtered_calls hinj cs hplain hargs hrep
  have hpair : Pairing (Paired cfg.save saved₀ saved) :=
    pairing_paired (firsts_lt_of_subset h.known₀ hids) (firsts_lt_of_subset h.known hids)
  have hmap : (cfg.unfiltered.program mem cs).stateMap = (cfg.program mem cs).stateMap := by
    have hproducer := h.producer
    unfold WrapperConfig.after at hproducer
    rw [producer_calls, producer_calls] at hproducer
    exact congrArg Producer.stateMap hproducer
  have henv : (cfg.unfiltered.program mem cs).env = (cfg.program mem cs).env := by
    unfold Program.env
    rw [hmap]
    rfl
  obtain ⟨hno₀, hno⟩ := h.thinned.no_commit
  rw [final_run_last hW hfin hpast hno hclass hs,
    final_run_last hW₀ hfin₀ hpast₀ hno₀ hclass₀ (by rw [hmap]; exact hs), henv]
  -- both runs are cleaned with the same maps
  have hcleaner : cleanerAfter (cfg.program mem cs).env (writesOf (cfg.program mem cs).events)
      = cleanerAfter (cfg.program mem cs).env (cfg.unfiltered.pushed cs) := h.thinned.cleaner.symm
  rw [hcleaner]
  exact (settled_thinned h.thinned hpair a s c off).symm

/-- A cell is read twice in one iteration: the second read is left out,
and the cell is input all the same. -/
theorem final_unfiltered_readTwice :
    let cfg : WrapperConfig := ⟨id, ⟨false, false⟩, Options.default, true⟩
    let cs : List WrapperCall := [.caratStateAlloc 1 100 8 (some oneFrame), .caratGetState "f" 1,
      .texasAddToStateLoad 7 100 (some oneFrame), .texasAddToStateLoad 8 100 (some oneFrame),
      .caratReportState 0]
    let su := Setup.alternating 8 false 20
    let pr := cfg.program (fun _ => 0) cs
    let pr₀ := cfg.unfiltered.program (fun _ => 0) cs
    cfg.pushed cs ≠ cfg.unfiltered.pushed cs ∧ Final (su.report pr) 1 0 (.offset .input 0)
      ∧ ∀ a s c off, s ∈ pr.stateMap.ids → (Final (su.report pr) a s (.offset c off) ↔
        Final (su.report pr₀) a s (.offset c off)) := by
  intro cfg cs su pr pr₀
  have hrep : cfg.OmitsRepeats pr.env cs := by
    intro pre c post ptr rw addresses heq htouch hactive hseen
    have hc : cs[pre.length]? = some c := by
      rw [heq]
      simp
    have hpre : pre = cs.take pre.length := by
      rw [heq]
      simp
    generalize pre.length = n at hc hpre
    subst hpre
    rcases n with _ | _ | _ | _ | _ | n
    · cases hc
      cases htouch
    · cases hc
      cases htouch
    · cases hc
      cases htouch
      exact absurd hseen (by decide)
    · cases hc
      cases htouch
      intro p hp
      rw [List.mem_singleton.mp hp]
      refine ⟨[.allocAdd 100 8 1 none, .stateBegin 0], .read, 2, [], 0, by decide +kernel,
        fun h => h, by decide +kernel, by decide +kernel,
        fun w hw => absurd hw List.not_mem_nil, ?_⟩
      intro a hfind
      have hblock : (rawRun pr.env ([.allocAdd 100 8 1 none, .stateBegin 0]
          ++ [.access .read 100 2])).find 100 = some 1 := by decide +kernel
      rw [hblock] at hfind
      injection hfind with hfind
      subst hfind
      refine ⟨by decide +kernel, by decide +kernel, ?_⟩
      intro mid f rest hsplit r _ herase
      rcases mid with _ | ⟨_, _ | _⟩
      · injection hsplit with hf
        rw [← hf] at herase
        exact absurd herase.1 (by decide)
      · cases hsplit
      · cases hsplit
    · cases hc
      cases htouch
    · cases hc
  have hclass : pr.ClassesLast su.window := pr.classesLast_of_one_batch (by decide)
  have hclass₀ : pr₀.ClassesLast su.window := pr₀.classesLast_of_one_batch (by decide)
  refine ⟨by decide +kernel, by decide +kernel, fun a s c off hs => ?_⟩
  refine final_unfiltered cfg Function.injective_id (fun _ => 0) cs ?_ su su (by decide) (by decide)
    (by decide +kernel) (by decide +kernel) (by decide +kernel) (by decide +kernel) hrep
    (by decide +kernel) hclass hclass₀ a s hs c off
  decide

/-- A cell is read in a ROI, then in a ROI inside of it. The second read
is the first of the inner ROI, but its address was seen: the inner ROI
does not report the cell as its input. -/
theorem filter_changes_final :
    let cfg : WrapperConfig := ⟨id, ⟨false, false⟩, Options.default, true⟩
    let cs : List WrapperCall := [.caratStateAlloc 1 100 8 (some oneFrame), .caratGetState "f" 1,
      .texasAddToStateLoad 7 100 (some oneFrame), .caratGetState "g" 2,
      .texasAddToStateLoad 8 100 (some oneFrame), .caratReportState 1, .caratReportState 0]
    let su := Setup.alternating 8 false 20
    let pr := cfg.program (fun _ => 0) cs
    let pr₀ := cfg.unfiltered.program (fun _ => 0) cs
    (su.run pr).Finished (su.config pr) ∧ (su.run pr).InertPast
      ∧ (su.run pr₀).Finished (su.config pr₀) ∧ (su.run pr₀).InertPast
      ∧ ¬ Final (su.report pr) 1 1 (.offset .input 0)
      ∧ Final (su.report pr₀) 1 1 (.offset .input 0) := by
  decide +kernel

end Carmot.Wrapper
