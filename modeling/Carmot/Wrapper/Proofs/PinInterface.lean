/-
What one call of `texasAddMultiToStatePin` makes of the PIN tool's
list.

`Applied` is what it should make: one table call per malloc and per
free event, in list order, with the calls of the forwarded accesses
between them. Two things keep the code from it. The decoder drops
every free event, and an access outside of a ROI returns from the loop,
past the malloc events behind it. Lists of 2^32 events and more are not
taken to the end. `applied_iff` says that nothing else goes wrong.
-/
import Mathlib.Data.List.Count
import Carmot.Wrapper.PinInterface

namespace Carmot.Wrapper

open Carmot.Texas
open Carmot.Lib (Rw)

-- ========================================================== the intention

/-- The calls that apply every allocation event of the list once and in
order; an access is forwarded or not. -/
inductive Applied (uniqueID : UInt64) : List PinAddress → List Call → Prop
  | nil : Applied uniqueID [] []
  | malloc (address : Addr) (size : UInt64) {queue : List PinAddress} {calls : List Call}
      (rest : Applied uniqueID queue calls) :
      Applied uniqueID (.malloc address size :: queue)
        (.addToAllocationTable address size uniqueID :: calls)
  | free (address : Addr) {queue : List PinAddress} {calls : List Call}
      (rest : Applied uniqueID queue calls) :
      Applied uniqueID (.free address :: queue) (.removeFromAllocationTable address :: calls)
  | forwarded (address : Addr) (isWritten : Bool) {queue : List PinAddress}
      {calls : List Call} (rest : Applied uniqueID queue calls) :
      Applied uniqueID (.touched address isWritten :: queue)
        (.addToState address (pinRw isWritten) uniqueID :: calls)
  | dropped (address : Addr) (isWritten : Bool) {queue : List PinAddress}
      {calls : List Call} (rest : Applied uniqueID queue calls) :
      Applied uniqueID (.touched address isWritten :: queue) calls

/-- Is it a free event? -/
def PinAddress.isFree : PinAddress → Bool
  | .free _ => true
  | _ => false

/-- Is it an access? -/
def PinAddress.isTouched : PinAddress → Bool
  | .touched _ _ => true
  | _ => false

/-- Is it a malloc event? -/
def PinAddress.isMalloc : PinAddress → Bool
  | .malloc _ _ => true
  | _ => false

/-- Does the call add to the allocation table? -/
def addsAllocation : Call → Bool
  | .addToAllocationTable _ _ _ => true
  | _ => false

/-- Does the call remove from the allocation table? -/
def removesAllocation : Call → Bool
  | .removeFromAllocationTable _ => true
  | _ => false

/-- Every allocation event has its call. -/
theorem Applied.counts {uniqueID : UInt64} {queue : List PinAddress} {calls : List Call}
    (h : Applied uniqueID queue calls) :
    calls.countP addsAllocation = queue.countP PinAddress.isMalloc
      ∧ calls.countP removesAllocation = queue.countP PinAddress.isFree := by
  induction h with
  | nil => exact ⟨rfl, rfl⟩
  | malloc address size _ ih =>
      simpa [List.countP_cons, addsAllocation, removesAllocation, PinAddress.isMalloc,
        PinAddress.isFree] using ih
  | free address _ ih =>
      simpa [List.countP_cons, addsAllocation, removesAllocation, PinAddress.isMalloc,
        PinAddress.isFree] using ih
  | forwarded address isWritten _ ih =>
      simpa [List.countP_cons, addsAllocation, removesAllocation, PinAddress.isMalloc,
        PinAddress.isFree] using ih
  | dropped address isWritten _ ih =>
      simpa [PinAddress.isMalloc, PinAddress.isFree] using ih

-- ============================================================ the decoder

/-- A list is taken to its end exactly when its length fits the tool's
counter. -/
theorem retrieveAddressesVector_left (queue : List PinAddress) :
    (retrieveAddressesVector queue).2 = [] ↔ queue.length < 2 ^ 32 := by
  induction queue with
  | nil => simp [retrieveAddressesVector]
  | cons event queue ih =>
      have hstep : (retrieveAddressesVector (event :: queue)).2
          = if retrieveNumAddresses (event :: queue) = 0 then event :: queue
            else (retrieveAddressesVector queue).2 := by
        simp only [retrieveAddressesVector]
        split
        · rfl
        · cases event <;> rfl
      rw [hstep]
      unfold retrieveNumAddresses
      rw [List.length_cons]
      by_cases hzero : (queue.length + 1) % 2 ^ 32 = 0
      · rw [if_pos hzero]
        have hbig : ¬ queue.length + 1 < 2 ^ 32 := by omega
        exact ⟨fun h => absurd h (List.cons_ne_nil _ _), fun h => absurd h hbig⟩
      · rw [if_neg hzero, ih]
        omega

/-- Of a list that fits the counter, the vector has everything but the
free events. -/
theorem retrieveAddressesVector_addresses {queue : List PinAddress}
    (h : queue.length < 2 ^ 32) :
    (retrieveAddressesVector queue).1 = queue.filter fun event => !event.isFree := by
  induction queue with
  | nil => rfl
  | cons event queue ih =>
      rw [List.length_cons] at h
      have hnum : retrieveNumAddresses (event :: queue) ≠ 0 := by
        unfold retrieveNumAddresses
        rw [List.length_cons]
        omega
      simp only [retrieveAddressesVector]
      rw [if_neg hnum]
      cases event with
      | touched address isWritten => simp [PinAddress.isFree, ih (by omega)]
      | malloc address size => simp [PinAddress.isFree, ih (by omega)]
      | free address => simp [PinAddress.isFree, ih (by omega)]

-- =============================================================== the loop

section Loop

variable {cfg : WrapperConfig} {uniqueID : UInt64}

/-- No access of the list is outside of a ROI with a malloc event
behind it. -/
def NoMallocAfterTouched : List PinAddress → Prop
  | [] => True
  | event :: queue =>
      (event.isTouched = true → ∀ e ∈ queue, e.isMalloc = false) ∧ NoMallocAfterTouched queue

theorem pinLoop_malloc (activeState : Option StateId) (sn : Seen) (address : Addr)
    (size : UInt64) (rest : List PinAddress) :
    (cfg.pinLoop activeState uniqueID sn (.malloc address size :: rest)).2
      = .addToAllocationTable address size uniqueID
        :: (cfg.pinLoop activeState uniqueID sn rest).2 := rfl

theorem pinLoop_outside (sn : Seen) (address : Addr) (isWritten : Bool)
    (rest : List PinAddress) :
    (cfg.pinLoop none uniqueID sn (.touched address isWritten :: rest)).2 = [] := by
  simp only [WrapperConfig.pinLoop]

/-- In a ROI an access is forwarded or passed over, and the loop goes
on. -/
theorem pinLoop_inside (s : StateId) (sn : Seen) (address : Addr) (isWritten : Bool)
    (rest : List PinAddress) :
    ∃ sn', (cfg.pinLoop (some s) uniqueID sn (.touched address isWritten :: rest)).2
        = (cfg.pinLoop (some s) uniqueID sn' rest).2
      ∨ (cfg.pinLoop (some s) uniqueID sn (.touched address isWritten :: rest)).2
        = .addToState address (pinRw isWritten) uniqueID
          :: (cfg.pinLoop (some s) uniqueID sn' rest).2 := by
  simp only [WrapperConfig.pinLoop]
  cases cfg.checkSeen sn address (pinRw isWritten) with
  | none => exact ⟨sn, Or.inl rfl⟩
  | some sn' => exact ⟨sn', Or.inr rfl⟩

/-- The loop makes no call that removes, on a vector without free
events. -/
theorem pinLoop_removes (activeState : Option StateId) (addresses : List PinAddress) :
    ∀ sn, (∀ e ∈ addresses, e.isFree = false) →
      (cfg.pinLoop activeState uniqueID sn addresses).2.countP removesAllocation = 0 := by
  induction addresses with
  | nil => intro sn _; rfl
  | cons event rest ih =>
      intro sn h
      have hrest : ∀ e ∈ rest, e.isFree = false := fun e he => h e (List.mem_cons_of_mem _ he)
      cases event with
      | touched address isWritten =>
          cases activeState with
          | none => rw [pinLoop_outside]; rfl
          | some s =>
              obtain ⟨sn', heq | heq⟩ := pinLoop_inside s sn address isWritten rest
              · rw [heq]
                exact ih sn' hrest
              · rw [heq]
                simpa [removesAllocation] using ih sn' hrest
      | malloc address size =>
          rw [pinLoop_malloc]
          simpa [removesAllocation] using ih sn hrest
      | free address => exact absurd (h _ (List.mem_cons_self ..)) (by simp [PinAddress.isFree])

/-- Outside of a ROI a malloc event behind an access has no call, so
all have one only if none is. -/
theorem noMallocAfterTouched_of_counts (addresses : List PinAddress) :
    ∀ sn, (∀ e ∈ addresses, e.isFree = false) →
      (cfg.pinLoop none uniqueID sn addresses).2.countP addsAllocation
        = addresses.countP PinAddress.isMalloc →
      NoMallocAfterTouched addresses := by
  induction addresses with
  | nil => intro sn _ _; trivial
  | cons event rest ih =>
      intro sn hfree h
      have hrest : ∀ e ∈ rest, e.isFree = false :=
        fun e he => hfree e (List.mem_cons_of_mem _ he)
      cases event with
      | touched address isWritten =>
          rw [pinLoop_outside] at h
          have hnone : ∀ e ∈ rest, e.isMalloc = false := by
            have hzero : rest.countP PinAddress.isMalloc = 0 := by
              simpa [PinAddress.isMalloc] using h.symm
            intro e he
            simpa using List.countP_eq_zero.mp hzero e he
          refine ⟨fun _ => hnone, ?_⟩
          -- no malloc event is left, so the rest is as good
          clear ih h hrest hfree
          induction rest with
          | nil => trivial
          | cons e rest ih =>
              exact ⟨fun _ e' he' => hnone e' (List.mem_cons_of_mem _ he'),
                ih fun e' he' => hnone e' (List.mem_cons_of_mem _ he')⟩
      | malloc address size =>
          rw [pinLoop_malloc] at h
          refine ⟨fun ht => absurd ht (by simp [PinAddress.isTouched]), ih sn hrest ?_⟩
          simpa [List.countP_cons, addsAllocation, PinAddress.isMalloc] using h
      | free address =>
          exact absurd (hfree _ (List.mem_cons_self ..)) (by simp [PinAddress.isFree])

/-- Events without a malloc and a free are applied by no call. -/
theorem applied_nil {queue : List PinAddress}
    (hfree : ∀ e ∈ queue, e.isFree = false) (hmalloc : ∀ e ∈ queue, e.isMalloc = false) :
    Applied uniqueID queue [] := by
  induction queue with
  | nil => exact Applied.nil
  | cons event queue ih =>
      have hrest := ih (fun e he => hfree e (List.mem_cons_of_mem _ he))
        fun e he => hmalloc e (List.mem_cons_of_mem _ he)
      cases event with
      | touched address isWritten => exact Applied.dropped address isWritten hrest
      | malloc address size =>
          exact absurd (hmalloc _ (List.mem_cons_self ..)) (by simp [PinAddress.isMalloc])
      | free address =>
          exact absurd (hfree _ (List.mem_cons_self ..)) (by simp [PinAddress.isFree])

/-- The loop applies a vector without free events, in a ROI or when no
malloc event is behind an access. -/
theorem applied_pinLoop (activeState : Option StateId) (addresses : List PinAddress) :
    ∀ sn, (∀ e ∈ addresses, e.isFree = false) →
      (activeState ≠ none ∨ NoMallocAfterTouched addresses) →
      Applied uniqueID addresses (cfg.pinLoop activeState uniqueID sn addresses).2 := by
  induction addresses with
  | nil => intro sn _ _; exact Applied.nil
  | cons event rest ih =>
      intro sn hfree hstate
      have hrest : ∀ e ∈ rest, e.isFree = false :=
        fun e he => hfree e (List.mem_cons_of_mem _ he)
      have hstate' : activeState ≠ none ∨ NoMallocAfterTouched rest := hstate.imp id And.right
      cases event with
      | touched address isWritten =>
          cases hact : activeState with
          | none =>
              rw [pinLoop_outside]
              rcases hstate with h | h
              · exact absurd hact h
              · exact Applied.dropped address isWritten (applied_nil hrest (h.1 rfl))
          | some s =>
              subst hact
              obtain ⟨sn', heq | heq⟩ := pinLoop_inside s sn address isWritten rest
              · rw [heq]
                exact Applied.dropped address isWritten (ih sn' hrest hstate')
              · rw [heq]
                exact Applied.forwarded address isWritten (ih sn' hrest hstate')
      | malloc address size =>
          rw [pinLoop_malloc]
          exact Applied.malloc address size (ih sn hrest hstate')
      | free address =>
          exact absurd (hfree _ (List.mem_cons_self ..)) (by simp [PinAddress.isFree])

end Loop

-- ============================================================ the wrapper

/-- One call applies the tool's list and empties it exactly when the
list fits the counter and has no free event, and a state is active or
no malloc event is behind an access. -/
theorem applied_iff (cfg : WrapperConfig) (w : Wrappers) (id : UInt64)
    (queue : List PinAddress) (traceArg : Option Trace) :
    (Applied (cfg.useID w.callstacks id traceArg).2 queue
          (cfg.texasAddMultiToStateQueue w id queue traceArg).1
        ∧ (cfg.texasAddMultiToStateQueue w id queue traceArg).2 = []) ↔
      queue.length < 2 ^ 32 ∧ (∀ e ∈ queue, e.isFree = false)
        ∧ (w.producer.activeState ≠ none ∨ NoMallocAfterTouched queue) := by
  have hleft : (cfg.texasAddMultiToStateQueue w id queue traceArg).2 = [] ↔
      queue.length < 2 ^ 32 := retrieveAddressesVector_left queue
  have hcalls : (cfg.texasAddMultiToStateQueue w id queue traceArg).1
      = (cfg.pinLoop w.producer.activeState (cfg.useID w.callstacks id traceArg).2 w.seen
          (retrieveAddressesVector queue).1).2 := rfl
  rw [hleft, hcalls]
  constructor
  · rintro ⟨happ, hlen⟩
    rw [retrieveAddressesVector_addresses hlen] at happ
    have hkept : ∀ e ∈ queue.filter (fun event => !event.isFree), e.isFree = false := by
      intro e he
      simpa using (List.mem_filter.mp he).2
    have hfree : ∀ e ∈ queue, e.isFree = false := by
      have hzero := happ.counts.2
      rw [pinLoop_removes _ _ _ hkept] at hzero
      intro e he
      simpa using List.countP_eq_zero.mp hzero.symm e he
    have hall : queue.filter (fun event => !event.isFree) = queue := by
      rw [List.filter_eq_self]
      intro e he
      simp [hfree e he]
    rw [hall] at happ
    refine ⟨hlen, hfree, ?_⟩
    cases hact : w.producer.activeState with
    | some s => exact Or.inl (by simp)
    | none =>
        rw [hact] at happ
        exact Or.inr (noMallocAfterTouched_of_counts queue _ hfree happ.counts.1)
  · rintro ⟨hlen, hfree, hstate⟩
    refine ⟨?_, hlen⟩
    have hall : queue.filter (fun event => !event.isFree) = queue := by
      rw [List.filter_eq_self]
      intro e he
      simp [hfree e he]
    rw [retrieveAddressesVector_addresses hlen, hall]
    exact applied_pinLoop _ _ _ hfree hstate

/-- A block allocated and freed: the free event has no call. -/
theorem free_not_applied :
    ¬ ∀ (cfg : WrapperConfig) (w : Wrappers) (id : UInt64) (queue : List PinAddress)
        (traceArg : Option Trace),
      Applied (cfg.useID w.callstacks id traceArg).2 queue
          (cfg.texasAddMultiToStateQueue w id queue traceArg).1
        ∧ (cfg.texasAddMultiToStateQueue w id queue traceArg).2 = [] := by
  intro h
  have happ := (h ⟨fun n => n, ⟨true, true⟩, Options.default, true⟩ Wrappers.init 1
    [.malloc 0x1000 8, .free 0x1000] none).1
  have hcount := happ.counts.2
  revert hcount
  decide

end Carmot.Wrapper
