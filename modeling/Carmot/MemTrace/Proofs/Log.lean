/-
The list MemTrace hands over, against what the program did.

`Program` is the specification: between the start and the stop of the
log it writes down every reference outside the stack, every call of
malloc with the address it returns, and every call of free.

The buffer is laid out as a chain of headers, and beyond the chain there
is nothing that `Expand` would push (`Laid`, `Quiet`). So what the buffer
holds is a list of references (`pending`), and the tool follows the
program as long as nothing goes past that list: no direct entry while it
is not empty, no reference that the compiled code does not log, and no
word left over from an earlier use of the buffer where a reference is
not reached (`Undisturbed`).
-/
import Mathlib.Data.List.Basic
import Carmot.MemTrace.Log

namespace Carmot.MemTrace

open Carmot.Texas (Addr)
open Carmot.Wrapper (PinAddress)

-- ========================================================== the program

/-- The references an instruction makes outside the stack. -/
def Ins.references (stackPtr : UInt64) (ins : Ins) (d : InsRun) : List PinAddress :=
  ins.accesses.filterMap fun a =>
    if a.2 = .stack ∨ onStack stackPtr d a.1 = true then none
    else some (.touched (d.ea a.1) (!a.1.isRead))

/-- The references of an execution of a trace. -/
def PinTrace.references (stackPtr : UInt64) (t : PinTrace) (run : List InsRun) : List PinAddress :=
  (t.instructions.zip run).flatMap fun p => p.1.references stackPtr p.2

/-- What the program has done since the log was started: the events in
order, a call of malloc where it begins, and the calls that have not
returned, the innermost first, by their place. -/
structure Program where
  inside : Bool
  out : List PinAddress
  openMallocs : List Nat
  deriving DecidableEq, Repr

/-- Before the first start. -/
def Program.init : Program := ⟨false, [], []⟩

def Program.step (stackPtr : UInt64) (prog : Program) : Event → Program
  | .startLogPinAll => if prog.inside then prog else ⟨true, [], []⟩
  | .stopLogPinAll => { prog with inside := false }
  | .instrumentTrace _ | .retrieve => prog
  | .execTrace t run =>
      if prog.inside then { prog with out := prog.out ++ t.references stackPtr run } else prog
  | .mallocEntry size =>
      if prog.inside then
        { prog with
          out := prog.out ++ [.malloc 0 size]
          openMallocs := prog.out.length :: prog.openMallocs }
      else prog
  | .mallocReturn address =>
      if prog.inside then
        match prog.openMallocs with
        | [] => prog
        | i :: rest =>
            { prog with
              out := prog.out.modify i (Tool.setAddress address)
              openMallocs := rest }
      else prog
  | .free address =>
      if prog.inside then { prog with out := prog.out ++ [.free address] } else prog

-- ======================================================= expanding a trace

section Expand

variable {data data' : Nat → Slot} {pos : Nat}

theorem expandTrace_cons_none {ref : Access} {refs : List Access}
    (h : (data pos).immediate? = none) :
    expandTrace (ref :: refs) data pos = expandTrace refs data (pos + 1) := by
  simp only [expandTrace, h]

theorem expandTrace_cons_some {ref : Access} {refs : List Access} {value : UInt64}
    (h : (data pos).immediate? = some value) :
    expandTrace (ref :: refs) data pos
      = (.touched value (!ref.isRead)
            :: (expandTrace refs (Function.update data pos .empty) (pos + 1)).1,
          (expandTrace refs (Function.update data pos .empty) (pos + 1)).2) := by
  simp only [expandTrace, h]

/-- Expanding a trace empties its words. -/
theorem expandTrace_snd (refs : List Access) :
    ∀ (data : Nat → Slot) (pos j : Nat), (expandTrace refs data pos).2 j
      = if pos ≤ j ∧ j < pos + refs.length then .empty else data j := by
  induction refs with
  | nil => intro data pos j; simp [expandTrace, show ¬ (pos ≤ j ∧ j < pos) by omega]
  | cons ref refs ih =>
      intro data pos j
      have hhead : (expandTrace (ref :: refs) data pos).2 j
          = (expandTrace refs (Function.update data pos .empty) (pos + 1)).2 j := by
        cases hslot : data pos with
        | empty =>
            have hupd : Function.update data pos Slot.empty = data := by
              rw [← hslot, Function.update_eq_self]
            rw [hupd, expandTrace_cons_none (by rw [hslot]; rfl)]
        | header t => rw [expandTrace_cons_some (by rw [hslot]; rfl)]
        | immediate value => rw [expandTrace_cons_some (by rw [hslot]; rfl)]
      rw [hhead, ih]
      by_cases hj : j = pos
      · subst hj
        simp
      · rw [Function.update_of_ne hj, List.length_cons]
        refine if_congr ?_ rfl rfl
        omega

/-- What is pushed for words with the given content. -/
def pushes (refs : List Access) (slots : List Slot) : List PinAddress :=
  (refs.zip slots).filterMap fun p => p.2.immediate?.map fun value => .touched value (!p.1.isRead)

/-- The entries of a trace whose first words are `slots` and whose other
ones are empty. -/
theorem expandTrace_fst (refs : List Access) :
    ∀ (slots : List Slot) (data : Nat → Slot) (pos : Nat),
      (∀ k < refs.length, data (pos + k) = slots.getD k .empty) →
      (expandTrace refs data pos).1 = pushes refs slots := by
  induction refs with
  | nil => intro slots data pos _; rfl
  | cons ref refs ih =>
      intro slots data pos hdata
      have hzero : data pos = slots.getD 0 .empty := hdata 0 (by simp)
      have hrest : ∀ data', (∀ j, pos < j → data' j = data j) →
          (expandTrace refs data' (pos + 1)).1 = pushes refs slots.tail := by
        intro data' hsame
        refine ih slots.tail data' (pos + 1) fun k hk => ?_
        rw [hsame _ (by omega), Nat.add_assoc, Nat.add_comm 1 k, hdata (k + 1) (by simpa using hk)]
        cases slots with
        | nil => rfl
        | cons slot slots => rfl
      have hkeep : ∀ j, pos < j → Function.update data pos Slot.empty j = data j :=
        fun j hj => Function.update_of_ne (by omega) ..
      cases slots with
      | nil =>
          rw [expandTrace_cons_none (by rw [hzero]; rfl), hrest data fun _ _ => rfl]
          simp [pushes]
      | cons slot slots =>
          rw [List.getD_cons_zero] at hzero
          cases slot with
          | empty =>
              rw [expandTrace_cons_none (by rw [hzero]; rfl)]
              exact hrest data fun _ _ => rfl
          | header t =>
              rw [expandTrace_cons_some (by rw [hzero]; rfl), hrest _ hkeep]
              rfl
          | immediate value =>
              rw [expandTrace_cons_some (by rw [hzero]; rfl), hrest _ hkeep]
              rfl

/-- Empty words: nothing is pushed and nothing changes. -/
theorem expandTrace_of_empty {refs : List Access}
    (h : ∀ k < refs.length, data (pos + k) = .empty) : expandTrace refs data pos = ([], data) := by
  have hfst : (expandTrace refs data pos).1 = [] := by
    rw [expandTrace_fst refs [] data pos h]
    simp [pushes]
  refine Prod.ext hfst (funext fun j => ?_)
  rw [expandTrace_snd]
  split
  next hj =>
    obtain ⟨k, rfl⟩ := Nat.exists_eq_add_of_le hj.1
    exact (h k (by omega)).symm
  · rfl

/-- Only the trace's own words are looked at. -/
theorem expandTrace_congr {refs : List Access}
    (h : ∀ k < refs.length, data (pos + k) = data' (pos + k)) :
    (expandTrace refs data pos).1 = (expandTrace refs data' pos).1 := by
  have hslots : ∀ k < refs.length,
      data' (pos + k) = (List.ofFn fun k : Fin refs.length => data' (pos + k)).getD k .empty := by
    intro k hk
    simp [List.getD, hk]
  rw [expandTrace_fst refs _ data' pos hslots,
    expandTrace_fst refs _ data pos fun k hk => (h k hk).trans (hslots k hk)]

end Expand

-- ================================================================ the chain

/-- From the position on there is nothing to push: a word is empty, or a
header with empty words behind it. -/
def Quiet (data : Nat → Slot) (c : Nat) : Prop :=
  ∀ i, c ≤ i → data i = .empty ∨ ∃ t, data i = .header t ∧ i + t.logWords < bufferWords
    ∧ ∀ k < t.refs.length, data (i + 1 + k) = .empty

/-- The traces' headers stand one behind the other. -/
def Laid (data : Nat → Slot) : Nat → List PinTrace → Prop
  | _, [] => True
  | i, t :: ts => data i = .header t ∧ Laid data (i + t.logWords) ts

/-- The room the traces take. -/
def totalWords : List PinTrace → Nat
  | [] => 0
  | t :: ts => t.logWords + totalWords ts

/-- The entries the buffer holds for them. -/
def pending (data : Nat → Slot) : Nat → List PinTrace → List PinAddress
  | _, [] => []
  | i, t :: ts => (expandTrace t.refs data (i + 1)).1 ++ pending data (i + t.logWords) ts

section Chain

variable {data data' : Nat → Slot} {t : PinTrace}

theorem totalWords_cons (t : PinTrace) (ts : List PinTrace) :
    totalWords (t :: ts) = t.logWords + totalWords ts := rfl

theorem totalWords_concat (t : PinTrace) (ts : List PinTrace) :
    totalWords (ts ++ [t]) = totalWords ts + t.logWords := by
  induction ts with
  | nil => exact Nat.add_comm _ _
  | cons t' ts ih =>
      rw [List.cons_append, totalWords_cons, totalWords_cons, ih, Nat.add_assoc]

theorem length_le_totalWords (ts : List PinTrace) : ts.length ≤ totalWords ts := by
  induction ts with
  | nil => exact Nat.zero_le _
  | cons t ts ih =>
      rw [totalWords_cons, List.length_cons]
      unfold PinTrace.logWords
      omega

theorem Quiet.mono {c c' : Nat} (h : Quiet data c) (hle : c ≤ c') : Quiet data c' :=
  fun i hi => h i (Nat.le_trans hle hi)

theorem laid_congr (ts : List PinTrace) :
    ∀ {i : Nat}, (∀ j, i ≤ j → j < i + totalWords ts → data j = data' j) →
      Laid data i ts → Laid data' i ts := by
  induction ts with
  | nil => intro i _ _; trivial
  | cons t ts ih =>
      intro i hsame hlaid
      rw [totalWords_cons] at hsame
      have hpos : 0 < t.logWords := by
        unfold PinTrace.logWords
        omega
      refine ⟨?_, ih (fun j hj hlt => hsame j (by omega) (by omega)) hlaid.2⟩
      rw [← hsame i (Nat.le_refl i) (by omega)]
      exact hlaid.1

theorem pending_congr (ts : List PinTrace) :
    ∀ {i : Nat}, (∀ j, i ≤ j → j < i + totalWords ts → data j = data' j) →
      pending data i ts = pending data' i ts := by
  induction ts with
  | nil => intro i _; rfl
  | cons t ts ih =>
      intro i hsame
      rw [totalWords_cons] at hsame
      have hown : (expandTrace t.refs data (i + 1)).1 = (expandTrace t.refs data' (i + 1)).1 := by
        refine expandTrace_congr fun k hk => hsame _ (by omega) ?_
        unfold PinTrace.logWords
        omega
      have hrest : pending data (i + t.logWords) ts = pending data' (i + t.logWords) ts :=
        ih fun j hj hlt => hsame j (by omega) (by omega)
      show _ ++ _ = _ ++ _
      rw [hown, hrest]

theorem laid_concat (ts : List PinTrace) :
    ∀ {i : Nat}, Laid data i ts → data (i + totalWords ts) = .header t →
      Laid data i (ts ++ [t]) := by
  induction ts with
  | nil => intro i _ h; exact ⟨h, trivial⟩
  | cons t' ts ih =>
      intro i hlaid h
      rw [totalWords_cons, ← Nat.add_assoc] at h
      exact ⟨hlaid.1, ih hlaid.2 h⟩

theorem pending_concat (ts : List PinTrace) :
    ∀ (i : Nat), pending data i (ts ++ [t])
      = pending data i ts ++ (expandTrace t.refs data (i + totalWords ts + 1)).1 := by
  induction ts with
  | nil => intro i; exact List.append_nil _
  | cons t' ts ih =>
      intro i
      show _ ++ pending data (i + t'.logWords) (ts ++ [t]) = (_ ++ _) ++ _
      rw [ih, totalWords_cons, List.append_assoc, Nat.add_assoc i]

/-- Expanding changes nothing before the position it starts from. -/
theorem expandFrom_snd_of_lt (fuel : Nat) :
    ∀ (data : Nat → Slot) (i j : Nat), j < i → (expandFrom fuel data i).2 j = data j := by
  induction fuel with
  | zero => intro data i j _; rfl
  | succ fuel ih =>
      intro data i j hj
      cases hslot : data i with
      | header t =>
          simp only [expandFrom, hslot]
          rw [ih _ _ _ (by omega), expandTrace_snd, if_neg (by omega)]
      | empty => simp only [expandFrom, hslot]
      | immediate value => simp only [expandFrom, hslot]

/-- Where all is quiet, expanding does nothing. -/
theorem Quiet.expandFrom {c : Nat} (h : Quiet data c) (fuel : Nat) :
    ∀ {i : Nat}, c ≤ i → expandFrom fuel data i = ([], data) := by
  induction fuel with
  | zero => intro i _; rfl
  | succ fuel ih =>
      intro i hi
      rcases h i hi with hslot | ⟨t, hslot, -, hempty⟩
      · simp only [MemTrace.expandFrom, hslot]
      · simp only [MemTrace.expandFrom, hslot, expandTrace_of_empty hempty]
        rw [ih (by omega)]
        rfl

/-- Expanding a chain pushes what it holds and leaves all quiet. -/
theorem expandFrom_laid (ts : List PinTrace) :
    ∀ {data : Nat → Slot} {i fuel : Nat}, Laid data i ts → Quiet data (i + totalWords ts) →
      i + totalWords ts < bufferWords → ts.length ≤ fuel →
      (expandFrom fuel data i).1 = pending data i ts ∧ Quiet (expandFrom fuel data i).2 i := by
  induction ts with
  | nil =>
      intro data i fuel _ hquiet _ _
      have hquiet' : Quiet data i := hquiet
      rw [hquiet'.expandFrom fuel (Nat.le_refl i)]
      exact ⟨rfl, hquiet'⟩
  | cons t ts ih =>
      intro data i fuel hlaid hquiet hroom hfuel
      cases fuel with
      | zero => exact absurd hfuel (by simp)
      | succ fuel =>
          rw [totalWords_cons, ← Nat.add_assoc] at hquiet hroom
          have hwords : t.logWords = 1 + t.refs.length := rfl
          generalize hd : (expandTrace t.refs data (i + 1)).2 = d
          have hsame : ∀ j, i + t.logWords ≤ j → d j = data j := by
            intro j hj
            rw [← hd, expandTrace_snd, if_neg (by omega)]
          have hquiet' : Quiet d (i + t.logWords + totalWords ts) := by
            intro j hj
            rw [hsame j (by omega)]
            refine (hquiet j hj).imp id fun ⟨t', ht', hlt, hempty⟩ => ⟨t', ht', hlt, fun k hk => ?_⟩
            rw [hsame _ (by omega)]
            exact hempty k hk
          obtain ⟨hpushed, hafter⟩ := @ih d _ fuel
            (laid_congr ts (fun j hj _ => (hsame j hj).symm) hlaid.2) hquiet' hroom
            (Nat.le_of_succ_le_succ hfuel)
          have hexpand : expandFrom (fuel + 1) data i
              = ((expandTrace t.refs data (i + 1)).1 ++ (expandFrom fuel d (i + t.logWords)).1,
                (expandFrom fuel d (i + t.logWords)).2) := by
            simp only [expandFrom, hlaid.1, hd]
          rw [hexpand]
          refine ⟨?_, fun j hj => ?_⟩
          · show _ ++ _ = _ ++ _
            rw [hpushed, pending_congr ts fun j hj _ => hsame j hj]
          · by_cases hfar : i + t.logWords ≤ j
            · exact hafter j hfar
            · -- inside the first trace: its header, then words just emptied
              have hword : ∀ j, i ≤ j → j < i + t.logWords →
                  (expandFrom fuel d (i + t.logWords)).2 j
                    = if i + 1 ≤ j ∧ j < i + 1 + t.refs.length then .empty else data j := by
                intro j _ hlt
                rw [expandFrom_snd_of_lt fuel d _ j hlt, ← hd, expandTrace_snd]
              by_cases hfirst : j = i
              · subst hfirst
                refine Or.inr ⟨t, ?_, by omega, fun k hk => ?_⟩
                · show (expandFrom fuel d (j + t.logWords)).2 j = _
                  rw [hword j hj (by omega), if_neg (by omega)]
                  exact hlaid.1
                · show (expandFrom fuel d (j + t.logWords)).2 (j + 1 + k) = _
                  rw [hword _ (by omega) (by omega), if_pos (by omega)]
              · refine Or.inl ?_
                show (expandFrom fuel d (i + t.logWords)).2 j = _
                rw [hword j hj (by omega), if_pos (by omega)]

end Chain

-- ==================================================== what a trace leaves

section Recorded

variable {stackPtr : UInt64} {t : PinTrace} {run : List InsRun}

/-- The instruction's references are logged. -/
def Ins.isLogged (ins : Ins) : Bool := !ins.isStack && ins.isStandardMemop

theorem pushes_append {refs refs' : List Access} {slots slots' : List Slot}
    (h : refs.length = slots.length) :
    pushes (refs ++ refs') (slots ++ slots') = pushes refs slots ++ pushes refs' slots' := by
  unfold pushes
  rw [List.zip_append h, List.filterMap_append]

theorem pushes_nil_right (refs : List Access) : pushes refs [] = [] := by
  simp [pushes]

theorem pushes_map (refs : List Access) (f : Access → Slot) :
    pushes refs (refs.map f)
      = refs.filterMap fun ref => (f ref).immediate?.map fun value => .touched value (!ref.isRead) := by
  unfold pushes
  rw [← List.map_prod_left_eq_zip, List.filterMap_map]
  rfl

/-- An instruction that is logged leaves its references, if none is to
address 0. -/
theorem pushes_of_logged {ins : Ins} {d : InsRun} (hlog : ins.isLogged = true)
    (hzero : ∀ w, PinAddress.touched 0 w ∉ ins.references stackPtr d) :
    pushes ins.instrument (ins.instrument.map (recordImmediate stackPtr d))
      = ins.references stackPtr d := by
  have hflags : ins.isStack = false ∧ ins.isStandardMemop = true := by
    simpa [Ins.isLogged] using hlog
  have hstack : ∀ a ∈ ins.accesses, a.2 ≠ .stack := by
    have hany := hflags.1
    unfold Ins.isStack at hany
    rw [List.any_eq_false] at hany
    exact fun a ha hst => hany a ha (decide_eq_true hst)
  have hinst : ins.instrument = ins.accesses.map (·.1) := by
    simp [Ins.instrument, hflags.1, hflags.2]
  rw [pushes_map, hinst, List.filterMap_map]
  unfold Ins.references at hzero ⊢
  refine List.filterMap_congr fun a ha => ?_
  have hmem : a.2 ≠ .stack := hstack a ha
  cases hon : onStack stackPtr d a.1 with
  | true => simp [recordImmediate, hon, Slot.immediate?]
  | false =>
      have hvalue : d.ea a.1 ≠ 0 := by
        intro h0
        refine hzero (!a.1.isRead) (List.mem_filterMap.mpr ⟨a, ha, ?_⟩)
        rw [if_neg (by simp [hmem, hon]), h0]
      simp [recordImmediate, hon, Slot.ofValue, hvalue, Slot.immediate?, hmem]

/-- One that is not logged leaves nothing. -/
theorem instrument_of_not_logged {ins : Ins} (h : ins.isLogged = false) : ins.instrument = [] := by
  unfold Ins.instrument
  cases hst : ins.isStack with
  | true => rfl
  | false =>
      have hstd : ins.isStandardMemop = false := by
        simpa [Ins.isLogged, hst] using h
      simp [hstd]

/-- The words of an execution, instruction by instruction. -/
theorem pushes_recorded (instructions : List Ins) :
    ∀ run : List InsRun,
      pushes (instructions.flatMap Ins.instrument)
          ((instructions.zip run).flatMap fun p =>
            p.1.instrument.map (recordImmediate stackPtr p.2))
        = (instructions.zip run).flatMap fun p =>
          pushes p.1.instrument (p.1.instrument.map (recordImmediate stackPtr p.2)) := by
  induction instructions with
  | nil => intro run; rfl
  | cons ins instructions ih =>
      intro run
      cases run with
      | nil => exact pushes_nil_right _
      | cons d run =>
          rw [List.flatMap_cons, List.zip_cons_cons, List.flatMap_cons, List.flatMap_cons,
            pushes_append (by simp), ih]

theorem length_recorded_le (stackPtr : UInt64) (t : PinTrace) (run : List InsRun) :
    (recorded stackPtr t run).length ≤ t.refs.length := by
  unfold recorded PinTrace.refs
  generalize t.instructions = instructions
  induction instructions generalizing run with
  | nil => exact Nat.zero_le _
  | cons ins instructions ih =>
      cases run with
      | nil => exact Nat.zero_le _
      | cons d run =>
          have h := ih run
          simp only [List.zip_cons_cons, List.flatMap_cons, List.length_append, List.length_map]
          omega

/-- Writing words changes their positions only. -/
theorem writeSlots_of_outside (slots : List Slot) :
    ∀ (data : Nat → Slot) (pos j : Nat), j < pos ∨ pos + slots.length ≤ j →
      writeSlots data pos slots j = data j := by
  induction slots with
  | nil => intro data pos j _; rfl
  | cons slot slots ih =>
      intro data pos j hj
      rw [List.length_cons] at hj
      show writeSlots (Function.update data pos slot) (pos + 1) slots j = _
      rw [ih _ _ _ (by omega), Function.update_of_ne (by omega)]

theorem writeSlots_at (slots : List Slot) :
    ∀ (data : Nat → Slot) (pos k : Nat), k < slots.length →
      writeSlots data pos slots (pos + k) = slots.getD k .empty := by
  induction slots with
  | nil => intro data pos k hk; exact absurd hk (by simp)
  | cons slot slots ih =>
      intro data pos k hk
      show writeSlots (Function.update data pos slot) (pos + 1) slots (pos + k) = _
      cases k with
      | zero =>
          rw [writeSlots_of_outside slots _ _ _ (by omega)]
          simp
      | succ k =>
          have hpos : pos + (k + 1) = pos + 1 + k := by omega
          rw [hpos, ih _ _ k (by simpa using hk)]
          rfl

end Recorded

-- ============================================================== the buffer

/-- The buffer holds a chain of traces, with room behind it. -/
structure Buffer (tool : Tool) (ts : List PinTrace) : Prop where
  laid : Laid tool.data 0 ts
  cursor : tool.logCursor = totalWords ts
  room : totalWords ts < bufferWords
  quiet : Quiet tool.data (totalWords ts)

/-- No word where a reference of the trace is not reached is left over
from an earlier use of the buffer. -/
def NoStale (stackPtr : UInt64) (tool : Tool) (t : PinTrace) (run : List InsRun) : Prop :=
  ∀ k < t.refs.length, (recorded stackPtr t run).length ≤ k →
    (tool.traceAlloc t).data ((tool.traceAlloc t).logCursor + 1 + k) = .empty

section Buffer

variable {stackPtr : UInt64} {tool : Tool} {ts : List PinTrace} {t : PinTrace} {run : List InsRun}

theorem buffer_init : Buffer Tool.init [] where
  laid := trivial
  cursor := rfl
  room := by decide
  quiet := fun _ _ => Or.inl rfl

theorem Buffer.expandFrom (h : Buffer tool ts) :
    tool.buffered = pending tool.data 0 ts ∧ Quiet tool.expand.data 0 := by
  have hroom := h.room
  refine expandFrom_laid ts h.laid ?_ ?_ ?_
  · rw [Nat.zero_add]
    exact h.quiet
  · omega
  · exact Nat.le_of_lt (Nat.lt_of_le_of_lt (length_le_totalWords ts) hroom)

/-- Afterwards the buffer is empty. -/
theorem Buffer.expand (h : Buffer tool ts) : Buffer tool.expand [] where
  laid := trivial
  cursor := rfl
  room := by decide
  quiet := h.expandFrom.2

theorem Buffer.buffered_nil (h : Buffer tool []) : tool.buffered = [] := h.expandFrom.1

/-- Making room moves entries from the buffer to the list. -/
theorem Buffer.traceAlloc (h : Buffer tool ts) (hfits : t.logWords < bufferWords) :
    ∃ ts', Buffer (tool.traceAlloc t) ts' ∧ totalWords ts' + t.logWords < bufferWords
      ∧ (tool.traceAlloc t).addresses ++ (tool.traceAlloc t).buffered
        = tool.addresses ++ tool.buffered := by
  unfold Tool.traceAlloc
  by_cases hfull : tool.logCursor + t.logWords ≥ bufferWords
  · rw [if_pos hfull]
    refine ⟨[], h.expand, ?_, ?_⟩
    · show 0 + t.logWords < bufferWords
      omega
    · rw [h.expand.buffered_nil, List.append_nil]
      rfl
  · rw [if_neg hfull]
    refine ⟨ts, h, ?_, rfl⟩
    rw [h.cursor] at hfull
    omega

/-- A trace adds its words to the chain. -/
theorem Buffer.execTrace (h : Buffer tool ts) (hfits : t.logWords < bufferWords)
    (hstale : NoStale stackPtr tool t run) :
    (∃ ts', Buffer (tool.execTrace stackPtr t run) ts')
      ∧ (tool.execTrace stackPtr t run).addresses ++ (tool.execTrace stackPtr t run).buffered
        = tool.addresses ++ tool.buffered ++ pushes t.refs (recorded stackPtr t run) := by
  obtain ⟨ts', hb, hroom, hsame⟩ := h.traceAlloc hfits
  unfold NoStale at hstale
  unfold Tool.execTrace
  generalize tool.traceAlloc t = tool' at hb hsame hstale ⊢
  dsimp only
  have hlen := length_recorded_le stackPtr t run
  have hwords : t.logWords = 1 + t.refs.length := rfl
  generalize hdata : writeSlots (Function.update tool'.data tool'.logCursor (.header t))
    (tool'.logCursor + 1) (recorded stackPtr t run) = data
  rw [hb.cursor] at hdata hstale ⊢
  have hbelow : ∀ j, j < totalWords ts' → data j = tool'.data j := by
    intro j hj
    rw [← hdata, writeSlots_of_outside _ _ _ _ (by omega), Function.update_of_ne (by omega)]
  have habove : ∀ j, totalWords ts' + t.logWords ≤ j → data j = tool'.data j := by
    intro j hj
    rw [← hdata, writeSlots_of_outside _ _ _ _ (by omega), Function.update_of_ne (by omega)]
  have hheader : data (totalWords ts') = .header t := by
    rw [← hdata, writeSlots_of_outside _ _ _ _ (by omega), Function.update_self]
  have hslots : ∀ k < t.refs.length,
      data (totalWords ts' + 1 + k) = (recorded stackPtr t run).getD k .empty := by
    intro k hk
    by_cases hreached : k < (recorded stackPtr t run).length
    · rw [← hdata, writeSlots_at _ _ _ k hreached]
    · rw [← hdata, writeSlots_of_outside _ _ _ _ (by omega), Function.update_of_ne (by omega),
        hstale k hk (by omega), List.getD_eq_getElem?_getD, List.getElem?_eq_none (by omega)]
      rfl
  have hnew : Buffer { tool' with
      data := data, logCursor := totalWords ts' + t.logWords } (ts' ++ [t]) := by
    refine ⟨laid_concat ts' ?_ ?_, (totalWords_concat t ts').symm, ?_, ?_⟩
    · exact laid_congr ts' (fun j _ hj => (hbelow j (by omega)).symm) hb.laid
    · rw [Nat.zero_add]
      exact hheader
    · rw [totalWords_concat]
      exact hroom
    · rw [totalWords_concat]
      intro i hi
      show data i = _ ∨ ∃ t, data i = _ ∧ _
      rw [habove i hi]
      refine (hb.quiet i (by omega)).imp id fun ⟨t', ht', hlt, hempty⟩ => ⟨t', ht', hlt, ?_⟩
      intro k hk
      show data (i + 1 + k) = _
      rw [habove _ (by omega)]
      exact hempty k hk
  refine ⟨⟨_, hnew⟩, ?_⟩
  have hpend : pending data 0 (ts' ++ [t])
      = pending tool'.data 0 ts' ++ pushes t.refs (recorded stackPtr t run) := by
    rw [pending_concat, Nat.zero_add, expandTrace_fst t.refs _ data _ hslots,
      pending_congr ts' fun j _ hj => hbelow j (by omega)]
  rw [hnew.expandFrom.1]
  show tool'.addresses ++ pending data 0 (ts' ++ [t]) = _
  rw [hpend, ← hb.expandFrom.1, ← List.append_assoc, hsame]

end Buffer

-- =============================================================== the steps

/-- The event does not get past what is buffered. -/
def Event.Undisturbed (stackPtr : UInt64) (tool : Tool) (prog : Program) : Event → Prop
  | .instrumentTrace _ | .stopLogPinAll => True
  | .execTrace t run =>
      (tool.compiled t.id = true → t.logWords < bufferWords ∧ NoStale stackPtr tool t run)
        ∧ ∀ p ∈ t.instructions.zip run, p.1.references stackPtr p.2 ≠ [] →
          if prog.inside = true then
            tool.compiled t.id = true ∧ p.1.isLogged = true
              ∧ ∀ w, PinAddress.touched 0 w ∉ p.1.references stackPtr p.2
          else tool.compiled t.id = true → p.1.isLogged = false
  | .mallocEntry _ | .free _ => prog.inside = true → tool.buffered = []
  | .mallocReturn _ => prog.inside = true →
      ∃ i rest, prog.openMallocs = i :: rest ∧ i + 1 = tool.addresses.length
  | .startLogPinAll => prog.inside = false → tool.addresses = []
  | .retrieve => prog.inside = false

/-- Inside the interval the list and the buffer together are what the
program did; outside the buffer is empty. -/
structure Follows (tool : Tool) (prog : Program) : Prop where
  buffer : ∃ ts, Buffer tool ts
  toggleMalloc : tool.toggleMalloc = !prog.inside
  toggleFree : tool.toggleFree = !prog.inside
  inside : prog.inside = true → tool.addresses ++ tool.buffered = prog.out
  outside : prog.inside = false → tool.buffered = []

/-- The buffer does not see the rest of the state. -/
theorem Buffer.congr {tool tool' : Tool} {ts : List PinTrace} (h : Buffer tool ts)
    (hdata : tool'.data = tool.data) (hcursor : tool'.logCursor = tool.logCursor) :
    Buffer tool' ts where
  laid := hdata ▸ h.laid
  cursor := hcursor.trans h.cursor
  room := h.room
  quiet := hdata ▸ h.quiet

theorem Follows.of_inside {tool : Tool} {prog : Program} (hin : prog.inside = true)
    (hb : ∃ ts, Buffer tool ts) (hmalloc : tool.toggleMalloc = false)
    (hfree : tool.toggleFree = false) (hout : tool.addresses ++ tool.buffered = prog.out) :
    Follows tool prog where
  buffer := hb
  toggleMalloc := by rw [hmalloc, hin]; rfl
  toggleFree := by rw [hfree, hin]; rfl
  inside := fun _ => hout
  outside := fun h => absurd (hin.symm.trans h) (by decide)

theorem Follows.of_outside {tool : Tool} {prog : Program} (hout : prog.inside = false)
    (hb : ∃ ts, Buffer tool ts) (hmalloc : tool.toggleMalloc = true)
    (hfree : tool.toggleFree = true) (hempty : tool.buffered = []) : Follows tool prog where
  buffer := hb
  toggleMalloc := by rw [hmalloc, hout]; rfl
  toggleFree := by rw [hfree, hout]; rfl
  inside := fun h => absurd (hout.symm.trans h) (by decide)
  outside := fun _ => hempty

theorem follows_init : Follows Tool.init Program.init where
  buffer := ⟨[], buffer_init⟩
  toggleMalloc := rfl
  toggleFree := rfl
  inside := fun h => absurd h (by decide)
  outside := fun _ => buffer_init.buffered_nil

section Steps

variable {stackPtr : UInt64} {tool : Tool} {prog : Program}

/-- What an instruction leaves are its references, where these are
logged. -/
theorem pushes_eq_references {ins : Ins} {d : InsRun}
    (h : ins.references stackPtr d ≠ [] →
      ins.isLogged = true ∧ ∀ w, PinAddress.touched 0 w ∉ ins.references stackPtr d) :
    pushes ins.instrument (ins.instrument.map (recordImmediate stackPtr d))
      = ins.references stackPtr d := by
  by_cases hnil : ins.references stackPtr d = []
  · cases hlog : ins.isLogged with
    | true =>
        refine pushes_of_logged hlog fun w => ?_
        rw [hnil]
        exact List.not_mem_nil
    | false =>
        rw [instrument_of_not_logged hlog, hnil]
        rfl
  · exact pushes_of_logged (h hnil).1 (h hnil).2

/-- Inside the interval a trace leaves its references. -/
theorem pushes_inside {t : PinTrace} {run : List InsRun} (hin : prog.inside = true)
    (hok : (Event.execTrace t run).Undisturbed stackPtr tool prog) :
    pushes t.refs (recorded stackPtr t run) = t.references stackPtr run := by
  refine (pushes_recorded t.instructions run).trans (List.flatMap_congr fun p hp => ?_)
  refine pushes_eq_references fun hne => ?_
  have hcond := hok.2 p hp hne
  rw [if_pos hin] at hcond
  exact hcond.2

/-- Outside it leaves nothing. -/
theorem pushes_outside {t : PinTrace} {run : List InsRun} (hout : prog.inside = false)
    (hcompiled : tool.compiled t.id = true)
    (hok : (Event.execTrace t run).Undisturbed stackPtr tool prog) :
    pushes t.refs (recorded stackPtr t run) = [] := by
  refine (pushes_recorded t.instructions run).trans (List.flatMap_eq_nil_iff.mpr fun p hp => ?_)
  have hcond : p.1.references stackPtr p.2 ≠ [] → p.1.isLogged = false := by
    intro hne
    have h := hok.2 p hp hne
    rw [if_neg (by rw [hout]; decide)] at h
    exact h hcompiled
  cases hlog : p.1.isLogged with
  | false =>
      rw [instrument_of_not_logged hlog]
      rfl
  | true =>
      have hnil : p.1.references stackPtr p.2 = [] := by
        by_contra hne
        rw [hcond hne] at hlog
        cases hlog
      rw [pushes_eq_references fun hne => absurd hnil hne, hnil]

/-- Executing a trace leaves the toggles and only adds to the list. -/
theorem execTrace_frame (stackPtr : UInt64) (tool : Tool) (t : PinTrace) (run : List InsRun) :
    (tool.execTrace stackPtr t run).toggleMalloc = tool.toggleMalloc
      ∧ (tool.execTrace stackPtr t run).toggleFree = tool.toggleFree
      ∧ ∃ more, (tool.execTrace stackPtr t run).addresses = tool.addresses ++ more := by
  show (tool.traceAlloc t).toggleMalloc = _ ∧ (tool.traceAlloc t).toggleFree = _
    ∧ ∃ more, (tool.traceAlloc t).addresses = _
  unfold Tool.traceAlloc
  split
  · exact ⟨rfl, rfl, _, rfl⟩
  · exact ⟨rfl, rfl, [], (List.append_nil _).symm⟩

/-- Without calls there were no references to log. -/
theorem references_of_no_calls {t : PinTrace} {run : List InsRun} (hin : prog.inside = true)
    (hcalls : (tool.compiled t.id && !t.refs.isEmpty) = false)
    (hok : (Event.execTrace t run).Undisturbed stackPtr tool prog) :
    t.references stackPtr run = [] := by
  cases hcompiled : tool.compiled t.id with
  | true =>
      have hrefs : t.refs = [] := by
        simpa [hcompiled] using hcalls
      rw [← pushes_inside hin hok, hrefs]
      rfl
  | false =>
      refine List.flatMap_eq_nil_iff.mpr fun p hp => ?_
      by_contra hne
      have hcond := hok.2 p hp hne
      rw [if_pos hin, hcompiled] at hcond
      exact absurd hcond.1 (by decide)

theorem Follows.toggles_inside (h : Follows tool prog) (hin : prog.inside = true) :
    tool.toggleMalloc = false ∧ tool.toggleFree = false := by
  rw [h.toggleMalloc, h.toggleFree, hin]
  exact ⟨rfl, rfl⟩

theorem Follows.toggles_outside (h : Follows tool prog) (hout : prog.inside = false) :
    tool.toggleMalloc = true ∧ tool.toggleFree = true := by
  rw [h.toggleMalloc, h.toggleFree, hout]
  exact ⟨rfl, rfl⟩

/-- A trace with calls. -/
theorem Follows.execCalls (h : Follows tool prog) {t : PinTrace} {run : List InsRun}
    (hcompiled : tool.compiled t.id = true)
    (hok : (Event.execTrace t run).Undisturbed stackPtr tool prog) :
    Follows (tool.execTrace stackPtr t run) (prog.step stackPtr (.execTrace t run)) := by
  obtain ⟨ts, hb⟩ := h.buffer
  obtain ⟨hfits, hstale⟩ := hok.1 hcompiled
  obtain ⟨hbuffer, hpushed⟩ := hb.execTrace hfits hstale
  obtain ⟨hmalloc, hfree, more, hmore⟩ := execTrace_frame stackPtr tool t run
  show Follows _ (if prog.inside then { prog with out := prog.out ++ t.references stackPtr run }
    else prog)
  cases hin : prog.inside with
  | true =>
      obtain ⟨hm, hf⟩ := h.toggles_inside hin
      refine .of_inside rfl hbuffer (hmalloc.trans hm) (hfree.trans hf) ?_
      rw [hpushed, h.inside hin, pushes_inside hin hok]
      rfl
  | false =>
      obtain ⟨hm, hf⟩ := h.toggles_outside hin
      refine .of_outside hin hbuffer (hmalloc.trans hm) (hfree.trans hf) ?_
      rw [h.outside hin, pushes_outside hin hcompiled hok, hmore, List.append_nil,
        List.append_nil, List.append_assoc] at hpushed
      exact (List.append_eq_nil_iff.mp (List.append_right_eq_self.mp hpushed)).2

theorem Follows.execTrace (h : Follows tool prog) {t : PinTrace} {run : List InsRun}
    (hok : (Event.execTrace t run).Undisturbed stackPtr tool prog) :
    Follows (tool.step stackPtr (.execTrace t run)) (prog.step stackPtr (.execTrace t run)) := by
  show Follows (if tool.compiled t.id && !t.refs.isEmpty then tool.execTrace stackPtr t run else tool)
    _
  cases hcalls : tool.compiled t.id && !t.refs.isEmpty with
  | true => exact h.execCalls (Bool.and_eq_true_iff.mp hcalls).1 hok
  | false =>
      show Follows tool (if prog.inside then
        { prog with out := prog.out ++ t.references stackPtr run } else prog)
      cases hin : prog.inside with
      | false => exact h
      | true =>
          obtain ⟨hm, hf⟩ := h.toggles_inside hin
          refine .of_inside rfl h.buffer hm hf ?_
          show _ = prog.out ++ t.references stackPtr run
          rw [references_of_no_calls hin hcalls hok, List.append_nil]
          exact h.inside hin

/-- An entry that goes to the list directly. -/
theorem Follows.append (h : Follows tool prog) (hin : prog.inside = true)
    (hempty : tool.buffered = []) (entry : PinAddress) (openMallocs : List Nat) :
    Follows { tool with addresses := tool.addresses ++ [entry] }
      ⟨true, prog.out ++ [entry], openMallocs⟩ := by
  obtain ⟨hm, hf⟩ := h.toggles_inside hin
  obtain ⟨ts, hb⟩ := h.buffer
  refine .of_inside rfl ⟨ts, hb.congr rfl rfl⟩ hm hf ?_
  have hout := h.inside hin
  rw [hempty, List.append_nil] at hout
  show (tool.addresses ++ [entry]) ++ tool.buffered = prog.out ++ [entry]
  rw [hempty, hout, List.append_nil]

theorem modify_append {α : Type} (f : α → α) (ys : List α) (xs : List α) :
    ∀ i < xs.length, (xs ++ ys).modify i f = xs.modify i f ++ ys := by
  induction xs with
  | nil => intro i hi; exact absurd hi (by simp)
  | cons x xs ih =>
      intro i hi
      cases i with
      | zero => rfl
      | succ i =>
          rw [List.cons_append, List.modify_succ_cons, List.modify_succ_cons,
            ih i (by simpa using hi), List.cons_append]

/-- The address goes into the entry of the call that returns. -/
theorem Follows.mallocReturn (h : Follows tool prog) (address : Addr)
    (hok : (Event.mallocReturn address).Undisturbed stackPtr tool prog) :
    Follows (tool.step stackPtr (.mallocReturn address))
      (prog.step stackPtr (.mallocReturn address)) := by
  cases hin : prog.inside with
  | false =>
      have hm := (h.toggles_outside hin).1
      have htool : tool.step stackPtr (.mallocReturn address) = tool := by
        simp [Tool.step, hm]
      have hprog : prog.step stackPtr (.mallocReturn address) = prog := by
        simp [Program.step, hin]
      rw [htool, hprog]
      exact h
  | true =>
      obtain ⟨hm, hf⟩ := h.toggles_inside hin
      obtain ⟨i, rest, hopen, hlast⟩ := hok hin
      have hprog : prog.step stackPtr (.mallocReturn address)
          = ⟨true, prog.out.modify i (Tool.setAddress address), rest⟩ := by
        simp [Program.step, hin, hopen]
      have htool : tool.step stackPtr (.mallocReturn address)
          = { tool with addresses := tool.addresses.modify i (Tool.setAddress address) } := by
        simp [Tool.step, hm, ← hlast]
      rw [htool, hprog]
      obtain ⟨ts, hb⟩ := h.buffer
      refine .of_inside rfl ⟨ts, hb.congr rfl rfl⟩ hm hf ?_
      show tool.addresses.modify i _ ++ tool.buffered = prog.out.modify i _
      rw [← h.inside hin, modify_append _ _ _ _ (by omega)]

theorem Follows.step (h : Follows tool prog) {event : Event}
    (hok : event.Undisturbed stackPtr tool prog) :
    Follows (tool.step stackPtr event) (prog.step stackPtr event) := by
  obtain ⟨ts, hb⟩ := h.buffer
  cases event with
  | instrumentTrace t =>
      exact ⟨⟨ts, hb.congr rfl rfl⟩, h.toggleMalloc, h.toggleFree, h.inside, h.outside⟩
  | execTrace t run => exact h.execTrace hok
  | mallocReturn address => exact h.mallocReturn address hok
  | mallocEntry size =>
      show Follows (if tool.toggleMalloc then tool else _) (if prog.inside then _ else prog)
      cases hin : prog.inside with
      | false =>
          rw [if_pos (h.toggles_outside hin).1]
          exact h
      | true =>
          rw [if_neg (by rw [(h.toggles_inside hin).1]; decide)]
          exact h.append hin (hok hin) _ _
  | free address =>
      show Follows (if tool.toggleFree then tool else _) (if prog.inside then _ else prog)
      cases hin : prog.inside with
      | false =>
          rw [if_pos (h.toggles_outside hin).2]
          exact h
      | true =>
          rw [if_neg (by rw [(h.toggles_inside hin).2]; decide)]
          exact h.append hin (hok hin) _ _
  | startLogPinAll =>
      show Follows _ (if prog.inside then prog else _)
      cases hin : prog.inside with
      | true => exact .of_inside hin ⟨ts, hb.congr rfl rfl⟩ rfl rfl (h.inside hin)
      | false =>
          refine .of_inside rfl ⟨ts, hb.congr rfl rfl⟩ rfl rfl ?_
          show tool.addresses ++ tool.buffered = []
          rw [hok hin, h.outside hin]
          rfl
  | stopLogPinAll =>
      exact .of_outside rfl ⟨[], hb.expand.congr rfl rfl⟩ rfl rfl hb.expand.buffered_nil
  | retrieve =>
      obtain ⟨hm, hf⟩ := h.toggles_outside hok
      exact .of_outside hok ⟨ts, hb.congr rfl rfl⟩ hm hf (h.outside hok)

end Steps

-- ================================================================ the runs

/-- The tool and the program take an event. -/
def stepBoth (stackPtr : UInt64) (s : Tool × Program) (event : Event) : Tool × Program :=
  (s.1.step stackPtr event, s.2.step stackPtr event)

/-- Both after some events, from the start of the thread. -/
def runEvents (stackPtr : UInt64) (events : List Event) : Tool × Program :=
  events.foldl (stepBoth stackPtr) (Tool.init, Program.init)

/-- No event of the run gets past what is buffered. -/
def UndisturbedFrom (stackPtr : UInt64) : Tool × Program → List Event → Prop
  | _, [] => True
  | s, event :: events =>
      event.Undisturbed stackPtr s.1 s.2 ∧ UndisturbedFrom stackPtr (stepBoth stackPtr s event) events

theorem follows_run (stackPtr : UInt64) (events : List Event) :
    ∀ {s : Tool × Program}, Follows s.1 s.2 → UndisturbedFrom stackPtr s events →
      Follows (events.foldl (stepBoth stackPtr) s).1 (events.foldl (stepBoth stackPtr) s).2 := by
  induction events with
  | nil => intro s h _; exact h
  | cons event events ih => intro s h hok; exact ih (h.step hok.1) hok.2

/-- In a run that nothing disturbs, stopping the log leaves the list with
exactly what the program did since it was started, in its order. -/
theorem addresses_eq_program (stackPtr : UInt64) (events : List Event)
    (hok : UndisturbedFrom stackPtr (Tool.init, Program.init) events)
    (hin : (runEvents stackPtr events).2.inside = true) :
    ((runEvents stackPtr events).1.step stackPtr .stopLogPinAll).addresses
      = (runEvents stackPtr events).2.out :=
  (follows_run stackPtr events follows_init hok).inside hin

/-- A trace of one store. -/
def oneStore : PinTrace := ⟨0, 0x7000, [⟨none, some .memory, none, true⟩]⟩

/-- A store to the given address. -/
def storeTo (address : UInt64) : InsRun := ⟨0x9000, fun _ => address⟩

/-- A call of malloc, then a store. -/
theorem addresses_eq_program_mallocFirst :
    let events := [.startLogPinAll, .instrumentTrace oneStore, .mallocEntry 8, .mallocReturn 0x5000,
      .execTrace oneStore [storeTo 0x5000]]
    ((runEvents 0xa000 events).1.step 0xa000 .stopLogPinAll).addresses
        = (runEvents 0xa000 events).2.out
      ∧ (runEvents 0xa000 events).2.out = [.malloc 0x5000 8, .touched 0x5000 true] := by
  intro events
  refine ⟨addresses_eq_program 0xa000 events ?_ (by decide), by decide⟩
  refine ⟨fun _ => rfl, trivial, fun _ => by decide, fun _ => ⟨0, [], by decide, by decide⟩, ⟨?_, ?_⟩,
    trivial⟩
  · intro _
    refine ⟨by decide, fun k hk hle => ?_⟩
    exact absurd (Nat.lt_of_lt_of_le hk hle) (Nat.lt_irrefl k)
  · decide

/-- A store, then a call of malloc: the list has them the other way
round. -/
theorem addresses_ne_program_storeFirst :
    let events := [.startLogPinAll, .instrumentTrace oneStore, .execTrace oneStore [storeTo 0x6000],
      .mallocEntry 8, .mallocReturn 0x5000]
    (runEvents 0xa000 events).2.inside = true
      ∧ (runEvents 0xa000 events).2.out = [.touched 0x6000 true, .malloc 0x5000 8]
      ∧ ((runEvents 0xa000 events).1.step 0xa000 .stopLogPinAll).addresses
        = [.malloc 0x5000 8, .touched 0x6000 true] := by
  decide

end Carmot.MemTrace
