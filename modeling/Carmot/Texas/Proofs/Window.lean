/-
What the window can change.

A batch boundary decides one thing: which class an access gets. The
second pass gives it the class its address has when its batch ends, not
when the iteration, the ROI or the run does. Everything else is the
same under every window: the first pass goes over the same writes and
finds the maps as the last commit left them (`sweep`), the fields a
call does not store are not read (`sameEffect_cleaned`), and the worker
executes the entries in push order (Threads).

So two runs of one program agree when every access has the same class
at the end of its batch in both, and the slots past the ends, which the
processing loop visits too, do nothing (`final_window`).
-/
import Carmot.Texas.Proofs.ActiveState
import Carmot.Texas.Proofs.Cleaned
import Carmot.Texas.Proofs.Threads

namespace Carmot.Texas

open Carmot.Lib (Rw)

-- ========================================================== stale fields

/-- The worker cannot tell two entries apart. -/
def SameEffect (env : Env) (e e' : ShadowEntry) : Prop :=
  ∀ rt, processEntry env rt e = processEntry env rt e'

theorem processEntries_congr {env : Env} {es es' : List ShadowEntry}
    (h : List.Forall₂ (SameEffect env) es es') :
    ∀ rt, processEntries env rt es = processEntries env rt es' := by
  induction h with
  | nil => intro rt; rfl
  | cons he _ ih =>
      intro rt
      show processEntries env (processEntry env rt _) _ = processEntries env (processEntry env rt _) _
      rw [he rt]
      exact ih _

/-- An access entry is read for its code, its address and its use. -/
theorem processAddToState_congr {env : Env} {e e' : ShadowEntry}
    (hop : e.operation = e'.operation) (hptr : e.ptr = e'.ptr)
    (hid : e.information = e'.information) (chain : List StateId) :
    ∀ rt, processAddToState env e rt chain = processAddToState env e' rt chain := by
  induction chain with
  | nil => intro rt; rfl
  | cons s parents ih =>
      intro rt
      have hrecord : ∀ a rt, recordAccess e a s rt = recordAccess e' a s rt := by
        intro a rt
        unfold recordAccess
        rw [hop, hptr, hid]
      unfold processAddToState
      simp only [hop, hptr, hrecord, ih]

theorem sameEffect_of_fields {env : Env} {e e' : ShadowEntry}
    (hop : e.operation = e'.operation) (hptr : e.ptr = e'.ptr)
    (hstate : e.sizeState = e'.sizeState) (hid : e.information = e'.information)
    (hkind : e.operation.isAccess = true ∨ e.operation = .redundant
      ∨ ∃ c, e.operation = .stateAdd c) : SameEffect env e e' := by
  intro rt
  have hadd := @processAddToState_congr env e e' hop hptr hid
    (env.tree.chain? e.sizeState.getStatePtr) rt
  unfold processEntry
  rw [← hop, ← hstate]
  cases h : e.operation with
  | stateAddRead => exact hadd
  | stateAddWrite => exact hadd
  | stateAdd c => exact hadd
  | redundant => rfl
  | _ => exact absurd hkind (by rw [h]; simp [Operation.isAccess, Operation.access?])

-- =============================================================== classes

/-- The class of an address, as far as the options ask for it. -/
def trackedClass (o : Options) (ptrs : StateId → StatePtrs) (s : StateId) (p : Addr) :
    Option StateClass :=
  ((ptrs s).statePtrMap p).filter fun c => o.tracks c

/-- An access with the class it is given. -/
def classify (o : Options) (e : ShadowEntry) : Option StateClass → ShadowEntry
  | none => dropAccess o e
  | some c => { e with operation := .stateAdd c }

/-- The second pass reads the tracked class and nothing else of the
maps. -/
theorem reassignEntry_eq_classify {o : Options} {ptrs : StateId → StatePtrs} {e : ShadowEntry}
    {s : StateId} (hacc : e.operation.isAccess = true) (hs : e.sizeState = .statePtr s) :
    reassignEntry o ptrs e = classify o e (trackedClass o ptrs s e.ptr) := by
  have hptr : e.sizeState.getStatePtr = some s := by
    rw [hs]
    rfl
  unfold reassignEntry trackedClass
  rw [if_pos hacc, hptr]
  show (match (ptrs s).statePtrMap e.ptr with
    | none => dropAccess o e
    | some c => if o.tracks c then { e with operation := .stateAdd c } else dropAccess o e) = _
  cases (ptrs s).statePtrMap e.ptr with
  | none => rfl
  | some c =>
      cases htrack : o.tracks c with
      | true => simp [Option.filter, htrack, classify]
      | false => simp [Option.filter, htrack, classify]

-- ================================================================ writes

section Stale

variable {env : Env} {cl : Cleaner}

theorem access_fill (rw : Rw) (p : Addr) (id : UInt64) (slot : ShadowEntry) :
    ((SlotWrite.access rw p id).fill slot).operation.access? = some rw := by
  cases rw with
  | read => rfl
  | write => rfl

/-- An access after the first pass, and after both. -/
theorem cleaned_access {rw : Rw} {p : Addr} {id : UInt64} {s : StateId}
    (hs : cl.batchState = some s) (ptrs : StateId → StatePtrs) (slot : ShadowEntry) :
    reassignEntry env.options ptrs (cleanEntry env cl ((SlotWrite.access rw p id).fill slot)).2
      = classify env.options
        { (SlotWrite.access rw p id).fill slot with sizeState := .statePtr s }
        (trackedClass env.options ptrs s p) := by
  rw [cleanEntry_access (access_fill rw p id slot) hs]
  exact reassignEntry_eq_classify (isAccess_of_access (access_fill rw p id slot)) rfl

/-- The first pass moves on alike over stale fields. -/
theorem cleanEntry_fill (env : Env) (cl : Cleaner) (w : SlotWrite) (slot : ShadowEntry) :
    (cleanEntry env cl (w.fill slot)).1 = (cleanEntry env cl w.entry).1 := by
  cases w with
  | access rw p id =>
      cases hb : cl.batchState with
      | none =>
          have hstay : ∀ slot, (cleanEntry env cl ((SlotWrite.access rw p id).fill slot)).1 = cl := by
            intro slot
            unfold cleanEntry
            simp only [access_fill, hb]
          exact (hstay slot).trans (hstay .redundant).symm
      | some s =>
          have hmove : ∀ slot, (cleanEntry env cl ((SlotWrite.access rw p id).fill slot)).1
              = cl.onState s (cleanAccess rw p) := by
            intro slot
            rw [cleanEntry_access (access_fill rw p id slot) hb]
            rfl
          exact (hmove slot).trans (hmove .redundant).symm
  | _ => rfl

/-- The cleaned form of a write acts in a buffer that was used before
as in a fresh one. -/
theorem sameEffect_cleaned {w : SlotWrite} (hacc : w.isAccess = true → cl.batchState ≠ none)
    (ptrs : StateId → StatePtrs) (slot : ShadowEntry) :
    SameEffect env (reassignEntry env.options ptrs (cleanEntry env cl (w.fill slot)).2)
      (reassignEntry env.options ptrs (cleanEntry env cl w.entry).2) := by
  cases w with
  | access rw p id =>
      obtain ⟨s, hs⟩ := Option.ne_none_iff_exists'.mp (hacc rfl)
      rw [cleaned_access hs]
      show SameEffect env _ (reassignEntry env.options ptrs
        (cleanEntry env cl ((SlotWrite.access rw p id).fill .redundant)).2)
      rw [cleaned_access hs]
      have hraw : (accessOperation rw).isAccess = true := by
        cases rw with
        | read => rfl
        | write => rfl
      cases trackedClass env.options ptrs s p with
      | some c => exact sameEffect_of_fields rfl rfl rfl rfl (Or.inr (Or.inr ⟨c, rfl⟩))
      | none =>
          unfold classify dropAccess
          dsimp only
          split
          · exact sameEffect_of_fields rfl rfl rfl rfl (Or.inl hraw)
          · exact sameEffect_of_fields rfl rfl rfl rfl (Or.inr (Or.inl rfl))
  | _ => intro rt; rfl

/-- A write is cleaned alike under maps that give its address the same
tracked class. -/
theorem cleaned_congr {w : SlotWrite} {ptrs ptrs' : StateId → StatePtrs}
    (hacc : ∀ rw p id, w = .access rw p id → ∃ s, cl.batchState = some s
      ∧ trackedClass env.options ptrs s p = trackedClass env.options ptrs' s p) :
    reassignEntry env.options ptrs (cleanEntry env cl w.entry).2
      = reassignEntry env.options ptrs' (cleanEntry env cl w.entry).2 := by
  cases w with
  | access rw p id =>
      obtain ⟨s, hs, hclass⟩ := hacc rw p id rfl
      unfold SlotWrite.entry
      rw [cleaned_access hs, cleaned_access hs, hclass]
  | _ => rfl

end Stale

-- ============================================================= the sweep

/-- The first pass over the writes of a run, whatever the batches: the
maps as it leaves them, and the state whose maps a commit, once
processed, empties before anything else is cleaned. -/
structure Sweep where
  cleaner : Cleaner
  committed : Option StateId

/-- The maps the next entry is cleaned with. -/
def Sweep.settle (sw : Sweep) : Cleaner :=
  match sw.committed with
  | none => sw.cleaner
  | some s => { sw.cleaner with ptrs := Function.update sw.cleaner.ptrs s StatePtrs.empty }

/-- Before the first write. -/
def Sweep.init : Sweep := ⟨texasInit.cleaner, none⟩

/-- One write. -/
def Sweep.step (env : Env) (sw : Sweep) (w : SlotWrite) : Sweep :=
  ⟨(cleanEntry env sw.settle w.entry).1, w.commits?⟩

/-- The writes in order. -/
def Sweep.over (env : Env) (sw : Sweep) (ws : List SlotWrite) : Sweep :=
  ws.foldl (Sweep.step env) sw

section Sweep

variable {env : Env} {sw : Sweep} {ws : List SlotWrite}

theorem Sweep.over_append (env : Env) (sw : Sweep) (ws ws' : List SlotWrite) :
    sw.over env (ws ++ ws') = (sw.over env ws).over env ws' := List.foldl_append

theorem Sweep.settle_batchState (sw : Sweep) : sw.settle.batchState = sw.cleaner.batchState := by
  unfold Sweep.settle
  split
  · rfl
  · rfl

theorem cleanEntry_batchState (env : Env) (cl : Cleaner) (w : SlotWrite) :
    (cleanEntry env cl w.entry).1.batchState = innerStep env.tree cl.batchState w := by
  cases w with
  | access rw p id =>
      show _ = cl.batchState
      cases hb : cl.batchState with
      | none =>
          unfold cleanEntry SlotWrite.entry
          simp only [access_fill, hb]
      | some s =>
          unfold SlotWrite.entry
          rw [cleanEntry_access (access_fill rw p id .redundant) hb]
          exact hb
  | _ => rfl

/-- The sweep follows the innermost state. -/
theorem Sweep.batchState_over (env : Env) (ws : List SlotWrite) :
    ∀ sw : Sweep, (sw.over env ws).settle.batchState
      = innerAfter env.tree sw.settle.batchState ws := by
  induction ws with
  | nil => intro sw; rfl
  | cons w ws ih =>
      intro sw
      show ((sw.step env w).over env ws).settle.batchState = _
      rw [ih, Sweep.settle_batchState]
      show innerAfter env.tree (cleanEntry env sw.settle w.entry).1.batchState ws = _
      rw [cleanEntry_batchState]
      rfl

/-- Where nothing commits the sweep is the first pass. -/
theorem Sweep.settle_over (ws : List SlotWrite) :
    ∀ sw : Sweep, (∀ w ∈ ws, w.commits? = none) →
      (sw.over env ws).settle = (firstPass env sw.settle (ws.map SlotWrite.entry)).1 := by
  induction ws with
  | nil => intro sw _; rfl
  | cons w ws ih =>
      intro sw hno
      have hone : (sw.step env w).settle = (cleanEntry env sw.settle w.entry).1 := by
        show Sweep.settle ⟨_, w.commits?⟩ = _
        rw [hno w (List.mem_cons_self ..)]
        rfl
      show ((sw.step env w).over env ws).settle = _
      rw [ih _ fun w' hw' => hno w' (List.mem_cons_of_mem _ hw'), hone]
      rfl

/-- A batch commits at its end, so its maps are those of the first
pass. -/
theorem Sweep.cleaner_over (hne : ws ≠ []) (hlast : ∀ w ∈ ws.dropLast, w.commits? = none) :
    (sw.over env ws).cleaner = (firstPass env sw.settle (ws.map SlotWrite.entry)).1 := by
  have hsplit : ws = ws.dropLast ++ [ws.getLast hne] := (List.dropLast_append_getLast hne).symm
  rw [hsplit, Sweep.over_append, List.map_append, firstPass_append,
    ← Sweep.settle_over ws.dropLast sw hlast]
  rfl

end Sweep

-- =========================================================== one batch

theorem Loaded.firstPass {ws : List SlotWrite} {es : List ShadowEntry} (h : Loaded ws es)
    (env : Env) :
    ∀ cl : Cleaner, (Carmot.Texas.firstPass env cl es).1
      = (Carmot.Texas.firstPass env cl (ws.map SlotWrite.entry)).1 := by
  induction h with
  | nil => intro cl; rfl
  | cons hw _ ih =>
      intro cl
      obtain ⟨slot, rfl⟩ := hw
      show (Carmot.Texas.firstPass env (cleanEntry env cl _).1 _).1
        = (Carmot.Texas.firstPass env (cleanEntry env cl _).1 _).1
      rw [cleanEntry_fill]
      exact ih _

/-- The cleaned batch acts as the one of fresh buffers. -/
theorem Loaded.cleanedAs {ws : List SlotWrite} {es : List ShadowEntry} (h : Loaded ws es)
    (env : Env) (ptrs : StateId → StatePtrs) :
    ∀ cl : Cleaner, InsideRoi env.tree cl.batchState ws →
      List.Forall₂ (SameEffect env) (Carmot.Texas.cleanedAs env ptrs cl es)
        (Carmot.Texas.cleanedAs env ptrs cl (ws.map SlotWrite.entry)) := by
  induction h with
  | nil => intro cl _; exact List.Forall₂.nil
  | @cons w e ws es hw _ ih =>
      intro cl hin
      obtain ⟨slot, rfl⟩ := hw
      apply List.Forall₂.cons (sameEffect_cleaned hin.1 ptrs slot)
      show List.Forall₂ (SameEffect env)
        (Carmot.Texas.cleanedAs env ptrs (cleanEntry env cl (w.fill slot)).1 es)
        (Carmot.Texas.cleanedAs env ptrs (cleanEntry env cl w.entry).1 _)
      rw [cleanEntry_fill]
      apply ih _
      rw [cleanEntry_batchState]
      exact hin.2

/-- The operations the processing loop passes over. -/
def Operation.inert : Operation → Bool
  | .freeSlot | .allocating | .stateBegin | .stateEnd | .threadKill | .redundant => true
  | _ => false

theorem processEntry_inert {e : ShadowEntry} (h : e.operation.inert = true) (env : Env)
    (rt : Runtime) : processEntry env rt e = rt := by
  unfold processEntry
  cases hop : e.operation with
  | freeSlot => rfl
  | allocating => rfl
  | stateBegin => rfl
  | stateEnd => rfl
  | threadKill => rfl
  | redundant => rfl
  | _ => exact absurd h (by rw [hop]; simp [Operation.inert])

theorem commit_fill {w : SlotWrite} {slot : ShadowEntry} (h : w.commits? = none) :
    (w.fill slot).operation ≠ .stateCommit := by
  cases w with
  | stateCommit s => cases h
  | access rw p id =>
      cases rw with
      | read => intro hop; cases hop
      | write => intro hop; cases hop
  | _ => intro hop; cases hop

theorem Loaded.no_commit {ws : List SlotWrite} {es : List ShadowEntry} (h : Loaded ws es)
    (hno : ∀ w ∈ ws, w.commits? = none) : ∀ e ∈ es, e.operation ≠ .stateCommit := by
  induction h with
  | nil => intro e he; cases he
  | @cons w e ws es hw _ ih =>
      intro e' he'
      rcases List.mem_cons.mp he' with rfl | he'
      · obtain ⟨slot, rfl⟩ := hw
        exact commit_fill (hno w (List.mem_cons_self ..))
      · exact ih (fun w' hw' => hno w' (List.mem_cons_of_mem _ hw')) e' he'

theorem Loaded.concat {w : SlotWrite} (ws : List SlotWrite) :
    ∀ {es : List ShadowEntry}, Loaded (ws ++ [w]) es →
      ∃ body slot, es = body ++ [w.fill slot] ∧ Loaded ws body := by
  induction ws with
  | nil =>
      intro es h
      cases h with
      | cons hw hrest =>
          cases hrest
          obtain ⟨slot, rfl⟩ := hw
          exact ⟨[], slot, rfl, List.Forall₂.nil⟩
  | cons w' ws ih =>
      intro es h
      cases h with
      | cons hw hrest =>
          obtain ⟨body, slot, hes, hbody⟩ := ih hrest
          exact ⟨_ :: body, slot, by rw [hes]; rfl, List.Forall₂.cons hw hbody⟩

/-- After a batch the maps are where the sweep is. -/
theorem cleaner_serialProcess {env : Env} {rt : Runtime} {sw : Sweep} {ws : List SlotWrite}
    {b : Batch} (hcl : rt.cleaner = sw.settle) (hload : Loaded ws b.entries)
    (hlast : ∀ w ∈ ws.dropLast, w.commits? = none) (hover : b.overrun.operation.inert = true) :
    (serialProcessShadowBatch env rt b).cleaner = (sw.over env ws).settle := by
  have hpass := hload.firstPass env rt.cleaner
  by_cases hno : ∀ w ∈ ws, w.commits? = none
  · rw [Sweep.settle_over ws sw hno, ← hcl, ← hpass, ← cleanBatch_cleaner]
    show (processEntries env (cleanBatch env rt b.entries).1
      ((cleanBatch env rt b.entries).2 ++ [b.overrun])).cleaner = _
    rw [processEntries_append]
    show (processEntry env _ b.overrun).cleaner = _
    rw [processEntry_inert hover, cleaner_processEntries]
    exact not_mem_cleanedAs untouched_stateCommit (hload.no_commit hno)
  · -- the last write commits, and the one before it nothing
    have hne : ws ≠ [] := by
      intro h
      subst h
      exact hno fun w hw => absurd hw List.not_mem_nil
    obtain ⟨w, hw⟩ : ∃ w, ws = ws.dropLast ++ [w] :=
      ⟨ws.getLast hne, (List.dropLast_append_getLast hne).symm⟩
    obtain ⟨s, hs⟩ : ∃ s, w = .stateCommit s := by
      cases w with
      | stateCommit s => exact ⟨s, rfl⟩
      | _ =>
          refine absurd ?_ hno
          intro w' hw'
          rw [hw] at hw'
          rcases List.mem_append.mp hw' with hw' | hw'
          · exact hlast w' hw'
          · rw [List.mem_singleton.mp hw']
            rfl
    subst hs
    rw [hw] at hload
    obtain ⟨body, slot, hb, hbody⟩ := hload.concat
    obtain ⟨fs, hfs, hrun⟩ := @commitBatch_split env rt _ _ _ hb rfl (hbody.no_commit hlast)
    rw [hrun, processEntry_inert hover, cleaner_commitEntry _ rfl, cleaner_processEntries _ _ _ hfs,
      cleanBatch_cleaner, hpass, hcl, ← Sweep.cleaner_over hne hlast]
    rw [hw, Sweep.over_append]
    rfl

-- ========================================================= a whole run

/-- What the batches execute in fresh buffers, with nothing past their
ends. -/
def idealStream (env : Env) : Sweep → List (List SlotWrite) → List ShadowEntry
  | _, [] => []
  | sw, ws :: ds =>
      cleanedAs env (firstPass env sw.settle (ws.map SlotWrite.entry)).1.ptrs sw.settle
          (ws.map SlotWrite.entry)
        ++ idealStream env (sw.over env ws) ds

/-- What they do execute has the same effect. -/
theorem executed_ideal {env : Env} {ds : List (List SlotWrite)} {bs : List Batch}
    (hload : List.Forall₂ (fun ws b => Loaded ws b.entries) ds bs) :
    ∀ {rt : Runtime} {sw : Sweep}, rt.cleaner = sw.settle →
      (∀ b ∈ bs, b.overrun.operation.inert = true) →
      (∀ ws ∈ ds, ∀ w ∈ ws.dropLast, w.commits? = none) →
      InsideRoi env.tree sw.settle.batchState ds.flatten →
      ∀ rt', processEntries env rt' (executed env rt bs)
        = processEntries env rt' (idealStream env sw ds) := by
  induction hload with
  | nil => intro rt sw _ _ _ _ rt'; rfl
  | @cons ws b ds bs hb _ ih =>
      intro rt sw hcl hover hlast hin rt'
      rw [List.flatten_cons, insideRoi_append] at hin
      have hover₁ := hover b (List.mem_cons_self ..)
      have hlast₁ := hlast ws (List.mem_cons_self ..)
      have hcl₁ := @cleaner_serialProcess env _ _ _ _ hcl hb hlast₁ hover₁
      have hin₁ : InsideRoi env.tree (sw.over env ws).settle.batchState ds.flatten := by
        rw [Sweep.batchState_over]
        exact hin.2
      have hrest := ih hcl₁ (fun b' hb' => hover b' (List.mem_cons_of_mem _ hb'))
        (fun ws' hws' => hlast ws' (List.mem_cons_of_mem _ hws')) hin₁
      have hclean : (cleanBatch env rt b.entries).2
          = cleanedAs env (firstPass env sw.settle (ws.map SlotWrite.entry)).1.ptrs sw.settle
            b.entries := by
        rw [cleanBatch_entries, hb.firstPass, hcl]
      show processEntries env rt' ((cleanBatch env rt b.entries).2 ++ b.overrun :: executed env _ bs)
        = processEntries env rt' (_ ++ idealStream env (sw.over env ws) ds)
      rw [processEntries_append, processEntries_append, hclean,
        processEntries_congr (hb.cleanedAs env _ sw.settle hin.1)]
      show processEntries env (processEntry env _ b.overrun) _ = _
      rw [processEntry_inert hover₁]
      exact hrest _

/-- Where the batch of write `i` ends, for batches of the given
sizes. -/
def batchEnd : List Nat → Nat → Nat
  | [], i => i
  | n :: ns, i => if i < n then n else n + batchEnd ns (i - n)

theorem getElem?_cleanedAs (env : Env) (ptrs : StateId → StatePtrs) (es : List ShadowEntry) :
    ∀ (cl : Cleaner) (i : Nat), (cleanedAs env ptrs cl es)[i]?
      = es[i]?.map fun e => reassignEntry env.options ptrs
        (cleanEntry env (firstPass env cl (es.take i)).1 e).2 := by
  induction es with
  | nil => intro cl i; rfl
  | cons e es ih =>
      intro cl i
      cases i with
      | zero => rfl
      | succ i => exact ih (cleanEntry env cl e).1 i

theorem length_cleanedAs (env : Env) (ptrs : StateId → StatePtrs) (cl : Cleaner)
    (es : List ShadowEntry) : (cleanedAs env ptrs cl es).length = es.length := by
  unfold cleanedAs
  rw [List.length_map, length_firstPass]

theorem length_idealStream (env : Env) (ds : List (List SlotWrite)) :
    ∀ sw : Sweep, (idealStream env sw ds).length = ds.flatten.length := by
  induction ds with
  | nil => intro sw; rfl
  | cons ws ds ih =>
      intro sw
      rw [idealStream, List.length_append, ih, length_cleanedAs, List.length_map,
        List.flatten_cons, List.length_append]

/-- Write `i` is executed with the class its address has at the end of
its batch. -/
theorem getElem?_idealStream {env : Env} (ds : List (List SlotWrite)) :
    ∀ {sw : Sweep}, (∀ ws ∈ ds, ∀ w ∈ ws.dropLast, w.commits? = none) →
      ∀ (i : Nat) (w : SlotWrite), ds.flatten[i]? = some w →
        (idealStream env sw ds)[i]? = some (reassignEntry env.options
          (sw.over env (ds.flatten.take (batchEnd (ds.map List.length) i))).cleaner.ptrs
          (cleanEntry env (sw.over env (ds.flatten.take i)).settle w.entry).2) := by
  induction ds with
  | nil => intro sw _ i w h; cases h
  | cons ws ds ih =>
      intro sw hlast i w hw
      have hlast₁ := hlast ws (List.mem_cons_self ..)
      rw [List.flatten_cons] at hw ⊢
      rw [idealStream, List.map_cons, batchEnd]
      by_cases hi : i < ws.length
      · -- in the first batch, before its last write
        rw [List.getElem?_append_left hi] at hw
        have hne : ws ≠ [] := by
          intro h
          subst h
          cases hw
        have hbefore : ∀ w ∈ ws.take i, w.commits? = none := by
          intro w' hw'
          apply hlast₁ w'
          rw [List.dropLast_eq_take]
          exact (List.take_prefix_take_left (by omega)).subset hw'
        rw [if_pos hi, List.take_append_of_le_length (Nat.le_of_lt hi), List.take_left,
          Sweep.settle_over _ _ hbefore, Sweep.cleaner_over hne hlast₁, List.map_take,
          List.getElem?_append_left (by rw [length_cleanedAs, List.length_map]; exact hi),
          getElem?_cleanedAs, List.getElem?_map, hw]
        rfl
      · have hge : ws.length ≤ i := Nat.le_of_not_lt hi
        rw [List.getElem?_append_right hge] at hw
        have hrest := @ih (sw.over env ws) (fun ws' h => hlast ws' (List.mem_cons_of_mem _ h))
          (i - ws.length) w hw
        rw [if_neg hi, List.take_length_add_append, Sweep.over_append,
          List.getElem?_append_right (by rw [length_cleanedAs, List.length_map]; exact hge),
          length_cleanedAs, List.length_map, hrest]
        have htake : (ws ++ ds.flatten).take i = ws ++ ds.flatten.take (i - ws.length) := by
          rw [List.take_append, List.take_of_length_le hge]
        rw [htake, Sweep.over_append]

-- ======================================================= past the ends

/-- Every slot visited that nobody filled holds an operation the loop
passes over. -/
def Threads.InertPast (m : Threads) : Prop :=
  ∀ v ∈ m.visited, v.1 ∉ m.filled → v.2.operation.inert = true

instance (m : Threads) : Decidable m.InertPast :=
  inferInstanceAs (Decidable (∀ v ∈ m.visited, v.1 ∉ m.filled → v.2.operation.inert = true))

theorem mem_slotRefs (ns : List Nat) :
    ∀ {k : Nat} {r : SlotRef}, r ∈ slotRefs k ns →
      ∃ j n, ns[j]? = some n ∧ r.batch = k + j ∧ r.index < n := by
  induction ns with
  | nil => intro k r h; cases h
  | cons n ns ih =>
      intro k r h
      rcases List.mem_append.mp h with h | h
      · obtain ⟨i, hi, rfl⟩ := List.mem_map.mp h
        exact ⟨0, n, rfl, rfl, List.mem_range.mp hi⟩
      · obtain ⟨j, n', hj, hk, hlt⟩ := ih h
        exact ⟨j + 1, n', hj, by omega, hlt⟩

/-- The slot past the end of every batch is visited. -/
theorem overrun_mem_visitLog (env : Env) (bs : List Batch) :
    ∀ (rt : Runtime) (k j : Nat) (b : Batch), bs[j]? = some b →
      ((⟨k + j, b.entries.length⟩, b.overrun) : SlotRef × ShadowEntry)
        ∈ visitLog env rt k bs := by
  induction bs with
  | nil => intro rt k j b h; cases h
  | cons c bs ih =>
      intro rt k j b h
      cases j with
      | zero =>
          injection h with h
          subst h
          apply List.mem_append_left _
          unfold visits
          rw [List.mapIdx_append, length_cleanBatch]
          exact List.mem_append_right _ (List.mem_singleton.mpr (by simp))
      | succ j =>
          apply List.mem_append_right _
          have hrest := ih (serialProcessShadowBatch env rt c) (k + 1) j b h
          rw [Nat.add_right_comm] at hrest
          exact hrest

theorem Threads.Outcome.inert {cfg : Config} {evs : List Event} {m : Threads} {bs : List Batch}
    (h : m.Outcome cfg evs bs) (hpast : m.InertPast) :
    ∀ b ∈ bs, b.overrun.operation.inert = true := by
  intro b hb
  obtain ⟨j, hj⟩ := List.mem_iff_getElem?.mp hb
  have hmem := overrun_mem_visitLog cfg.env bs texasInit 0 j b hj
  rw [← h.visited] at hmem
  apply hpast _ hmem
  intro hfilled
  rw [h.filled] at hfilled
  obtain ⟨j', n, hn, hbatch, hlt⟩ := mem_slotRefs _ hfilled
  have hjj : j' = j := by
    have hnum : 0 + j = 0 + j' := hbatch
    omega
  subst hjj
  -- the batch has as many entries as writes
  have hsize : n = b.entries.length := by
    rw [← lengths_of_loaded h.loaded, List.getElem?_map, hj] at hn
    injection hn with hn
    exact hn.symm
  have hlt' : b.entries.length < n := hlt
  omega

-- ======================================================== optimisations

/-- The environment with `disableOptimizations` set or not. -/
def Env.setDisabled (env : Env) (d : Bool) : Env :=
  { env with options := { env.options with disableOptimizations := d } }

section Disabled

variable (env : Env) (d : Bool)

theorem processAddToState_setDisabled (e : ShadowEntry) (chain : List StateId) :
    ∀ rt, processAddToState (env.setDisabled d) e rt chain = processAddToState env e rt chain := by
  induction chain with
  | nil => intro rt; rfl
  | cons s parents ih =>
      intro rt
      unfold processAddToState
      simp only [ih]
      rfl

/-- Processing does not look at the switch. -/
theorem processEntry_setDisabled (rt : Runtime) (e : ShadowEntry) :
    processEntry (env.setDisabled d) rt e = processEntry env rt e := by
  unfold processEntry
  split
  · rfl
  · rfl
  · rfl
  · exact processAddToState_setDisabled env d e _ rt
  · exact processAddToState_setDisabled env d e _ rt
  · exact processAddToState_setDisabled env d e _ rt
  · rfl
  · rfl
  · rfl

theorem processEntries_setDisabled (es : List ShadowEntry) :
    ∀ rt, processEntries (env.setDisabled d) rt es = processEntries env rt es := by
  induction es with
  | nil => intro rt; rfl
  | cons e es ih =>
      intro rt
      show processEntries (env.setDisabled d) (processEntry (env.setDisabled d) rt e) es = _
      rw [ih, processEntry_setDisabled]
      rfl

theorem firstPass_setDisabled (es : List ShadowEntry) :
    ∀ cl, firstPass (env.setDisabled d) cl es = firstPass env cl es := by
  induction es with
  | nil => intro cl; rfl
  | cons e es ih =>
      intro cl
      unfold firstPass
      simp only [ih]
      rfl

theorem idealStream_setDisabled (ds : List (List SlotWrite)) :
    ∀ sw, idealStream (env.setDisabled d) sw ds = idealStream env sw ds := by
  induction ds with
  | nil => intro sw; rfl
  | cons ws ds ih =>
      intro sw
      unfold idealStream cleanedAs
      rw [ih, firstPass_setDisabled]
      rfl

end Disabled

-- ========================================================= two windows

/-- A program: its calls, and what they are run with. -/
structure Program where
  options : Options
  mem : Addr → UInt64
  calls : List Call

namespace Program

variable (pr : Program)

/-- What the calls push. -/
def events : List Event := (Producer.init.calls pr.options.trackCycles pr.calls).2

/-- The states they create. -/
def stateMap : StateMap := (Producer.init.calls pr.options.trackCycles pr.calls).1.stateMap

def env : Env := ⟨pr.options, pr.stateMap.tree, pr.mem⟩

/-- The state active before call number `i`. -/
def activeAt (i : Nat) : Option StateId :=
  innerAfter pr.stateMap.tree none ((writesOf pr.events).take i)

/-- The class the state machine has for an address after the first `n`
writes, as far as it is tracked. The machine runs over the writes in
push order, and a commit empties its state's maps before the next. -/
def classAfter (n : Nat) (s : StateId) (p : Addr) : Option StateClass :=
  trackedClass pr.options (Sweep.init.over pr.env ((writesOf pr.events).take n)).cleaner.ptrs s p

/-- How many writes are made when the batch of write `i` ends. -/
def batchEnd (window i : Nat) : Nat :=
  Carmot.Texas.batchEnd ((divide window [] pr.events).map List.length) i

/-- Every access has the same class at the end of its batch under both
windows. -/
def SameClasses (window₁ window₂ : Nat) : Prop :=
  ∀ i rw p id s, (writesOf pr.events)[i]? = some (.access rw p id) → pr.activeAt i = some s →
    pr.classAfter (pr.batchEnd window₁ i) s p = pr.classAfter (pr.batchEnd window₂ i) s p

theorem flatten_divide (window : Nat) :
    (divide window [] pr.events).flatten = writesOf pr.events :=
  Carmot.Texas.flatten_divide window pr.events []

/-- A commit is the last write of its batch. -/
theorem commit_last (window : Nat) :
    ∀ ws ∈ divide window [] pr.events, ∀ w ∈ ws.dropLast, w.commits? = none := by
  refine commit_last_divide window pr.events [] (commitsFlushed_calls _ _ _) ?_ ?_
  · intro w hw
    cases hw
  · intro h
    obtain ⟨w, hw, -⟩ := h
    cases hw

/-- An access is made inside a ROI. -/
theorem insideRoi : InsideRoi pr.stateMap.tree none (writesOf pr.events) :=
  (calls_agree pr.options.trackCycles pr.stateMap.tree pr.calls Producer.init fun _ _ => rfl).1

end Program

/-- How a program is run: the window, the mode, the buffers as they were
found, and the interleaving. -/
structure Setup where
  window : Nat
  disableOptimizations : Bool
  memory : BufferId → Nat → ShadowEntry
  past : Nat → ShadowEntry
  schedule : List Turn

namespace Setup

variable (su : Setup) (pr : Program)

def config : Config := ⟨pr.env.setDisabled su.disableOptimizations, su.window, su.past⟩

/-- The run. -/
def run : Threads := (Threads.init su.memory pr.events).run (su.config pr) su.schedule

/-- The report at its end. -/
def report : Runtime := reportStatistics (su.config pr).env pr.stateMap.ids (su.run pr).rt

end Setup

/-- A run that finishes over inert slots ends where the ideal stream of
its division does. -/
theorem forget_run {su : Setup} {pr : Program} (hW : 1 ≤ su.window)
    (hfin : (su.run pr).Finished (su.config pr)) (hpast : (su.run pr).InertPast) :
    (su.run pr).rt.forget = processEntries pr.env texasInit
      (idealStream pr.env Sweep.init (divide su.window [] pr.events)) := by
  obtain ⟨bs, hout⟩ := outcome_run (su.config pr) hW su.memory pr.events su.schedule hfin
  have hrt : (su.run pr).rt = runBatches (su.config pr).env texasInit bs := hout.rt
  have hin : InsideRoi pr.stateMap.tree none (divide su.window [] pr.events).flatten := by
    rw [pr.flatten_divide]
    exact pr.insideRoi
  have hideal := @executed_ideal (su.config pr).env _ _ hout.loaded texasInit Sweep.init rfl
    (hout.inert hpast) (pr.commit_last su.window) hin
  rw [hrt, runBatches_forget, forget_init, hideal]
  show processEntries (pr.env.setDisabled _) _ (idealStream (pr.env.setDisabled _) _ _) = _
  rw [processEntries_setDisabled, idealStream_setDisabled]
  rfl

/-- Divisions that give every access the same class execute the same
stream. -/
theorem idealStream_eq {pr : Program} {window₁ window₂ : Nat}
    (hclass : pr.SameClasses window₁ window₂) :
    idealStream pr.env Sweep.init (divide window₁ [] pr.events)
      = idealStream pr.env Sweep.init (divide window₂ [] pr.events) := by
  apply List.ext_getElem?
  intro i
  cases hw : (writesOf pr.events)[i]? with
  | none =>
      have hlen : ∀ window, (idealStream pr.env Sweep.init (divide window [] pr.events))[i]?
          = none := by
        intro window
        rw [List.getElem?_eq_none_iff, length_idealStream, pr.flatten_divide]
        exact List.getElem?_eq_none_iff.mp hw
      rw [hlen, hlen]
  | some w =>
      have hget : ∀ window, (idealStream pr.env Sweep.init (divide window [] pr.events))[i]?
          = some (reassignEntry pr.env.options
            (Sweep.init.over pr.env
              ((writesOf pr.events).take (pr.batchEnd window i))).cleaner.ptrs
            (cleanEntry pr.env
              (Sweep.init.over pr.env ((writesOf pr.events).take i)).settle w.entry).2) := by
        intro window
        have h := @getElem?_idealStream pr.env (divide window [] pr.events) Sweep.init
          (pr.commit_last window) i w (by rw [pr.flatten_divide]; exact hw)
        rw [pr.flatten_divide] at h
        exact h
      rw [hget, hget]
      refine congrArg some (cleaned_congr ?_)
      intro rw p id hacc
      subst hacc
      -- the access was made inside some ROI
      have hbatch : (Sweep.init.over pr.env ((writesOf pr.events).take i)).settle.batchState
          = pr.activeAt i := Sweep.batchState_over pr.env _ Sweep.init
      obtain ⟨s, hs⟩ := pr.insideRoi.active hw rfl
      exact ⟨s, hbatch.trans hs, hclass i rw p id s hw hs⟩

/-- Batching is transparent where it gives every access the same class:
then the Final sets of every state are the same, whatever the windows,
the modes and the interleavings. -/
theorem final_window (pr : Program) (su₁ su₂ : Setup)
    (hW₁ : 1 ≤ su₁.window) (hfin₁ : (su₁.run pr).Finished (su₁.config pr))
    (hpast₁ : (su₁.run pr).InertPast)
    (hW₂ : 1 ≤ su₂.window) (hfin₂ : (su₂.run pr).Finished (su₂.config pr))
    (hpast₂ : (su₂.run pr).InertPast)
    (hclass : pr.SameClasses su₁.window su₂.window)
    (a : AllocId) (s : StateId) (x : Item) :
    Final (su₁.report pr) a s x ↔ Final (su₂.report pr) a s x := by
  have hsame : (su₁.run pr).rt.forget = (su₂.run pr).rt.forget := by
    rw [forget_run hW₁ hfin₁ hpast₁, forget_run hW₂ hfin₂ hpast₂, idealStream_eq hclass]
  unfold Setup.report
  rw [← final_reportStatistics_forget, hsame, ← final_reportStatistics_forget (su₂.config pr).env]
  exact Iff.rfl

/-- The two threads taking turns, over buffers that hold nothing. -/
def Setup.alternating (window : Nat) (disableOptimizations : Bool) (turns : Nat) : Setup where
  window := window
  disableOptimizations := disableOptimizations
  memory := fun _ _ => .redundant
  past := fun _ => .redundant
  schedule := (List.replicate turns [Turn.producer, Turn.worker]).flatten

/-- Two allocations and one iteration that writes: a boundary that falls
between the iteration's begin and its write changes nothing. -/
theorem final_window_boundary :
    let pr : Program := ⟨Options.default, fun _ => 0,
      [.addToAllocationTable 100 8 1, .addToAllocationTable 200 8 2, .getState "f" 1,
        .addToState 100 .write 1, .endState 0]⟩
    let su₁ := Setup.alternating 3 false 20
    let su₂ := Setup.alternating 7 false 20
    divide su₁.window [] pr.events ≠ divide su₂.window [] pr.events
      ∧ ∀ a s x, Final (su₁.report pr) a s x ↔ Final (su₂.report pr) a s x := by
  intro pr su₁ su₂
  refine ⟨by decide, final_window pr su₁ su₂ (by decide) (by decide +kernel)
    (by decide +kernel) (by decide) (by decide +kernel) (by decide +kernel) ?_⟩
  intro i rw p id s hw _
  rcases i with _ | _ | _ | _ | _ | i
  · cases hw
  · cases hw
  · cases hw
  · rfl
  · cases hw
  · cases hw

/-- One iteration that writes a cell. In one batch the cell is output;
with a batch per entry its write is dropped, since the iteration is
still open when the batch of the write ends. -/
theorem window_changes_final :
    let pr : Program := ⟨Options.default, fun _ => 0,
      [.addToAllocationTable 100 8 1, .getState "f" 1, .addToState 100 .write 1, .endState 0]⟩
    let su₁ := Setup.alternating 1 true 20
    let su₂ := Setup.alternating 4 false 20
    (su₁.run pr).Finished (su₁.config pr) ∧ (su₁.run pr).InertPast
      ∧ (su₂.run pr).Finished (su₂.config pr) ∧ (su₂.run pr).InertPast
      ∧ ¬ Final (su₁.report pr) 1 0 (.offset .output 0)
      ∧ Final (su₂.report pr) 1 0 (.offset .output 0) := by
  decide +kernel

end Carmot.Texas
