/-
What a free does to the information of the other live ranges.

A free commits the object its address is found in, but first erases the
object's records of the states that are on the chain of the object's
state and on the chain of the free's (the skip rule). Ranges of one
origin share one object, so the records erased may stem from accesses
to a range that stays live.

`freesSpare_iff` says exactly when no information of another range gets
lost in a run: at every free, what was recorded for accesses to another
live range on the same object, under a state the skip rule covers, has
reached the state before.
-/
import Carmot.Texas.Proofs.FinalSets
import Carmot.Texas.Proofs.Lookup

namespace Carmot.Texas

open Carmot.Lib

/-- The entry frees the range. -/
def Frees (e : ShadowEntry) (r : LiveRange) : Prop := e.operation = .allocFree ∧ e.ptr = r.base

/-- The run recorded the item on object `a` for an access to the range,
which has been live since. -/
def RecordedFor (env : Env) (es : List ShadowEntry) (r : LiveRange) (a : AllocId) (s : StateId)
    (x : Item) : Prop :=
  ∃ pre e post live, es = pre ++ e :: post ∧ AllocatorRun [] pre live ∧ r ∈ live
    ∧ r.Contains e.ptr ∧ Records env (processEntries env texasInit pre) e a s x
    ∧ ∀ g ∈ post, ¬ Frees g r

/-- The free `f` after the run `es` leaves what was recorded for the
other live ranges where it can be found. -/
def FreeSpares (env : Env) (es : List ShadowEntry) (f : ShadowEntry) : Prop :=
  ∀ live r₀, AllocatorRun [] es live → r₀ ∈ live → Frees f r₀ →
    ∀ r ∈ live, r ≠ r₀ → ∀ a s x, RecordedFor env es r a s x →
      Settled (processEntries env texasInit (es ++ [f])) a s x

/-- Before the free `f`: what was recorded for the other live ranges on
the object `f` finds, under a state its skip rule covers, has been
committed. -/
def OthersCommitted (env : Env) (es : List ShadowEntry) (f : ShadowEntry) : Prop :=
  let rt := processEntries env texasInit es
  ∀ live r₀, AllocatorRun [] es live → r₀ ∈ live → Frees f r₀ →
    ∀ r ∈ live, r ≠ r₀ → ∀ a s x, RecordedFor env es r a s x →
      rt.find f.ptr = some a → Skips env.tree (rt.allocs a) f.affiliatedState s →
        Committed rt a s x

-- =========================================================== live ranges

/-- A range that is not freed stays live. -/
theorem AllocatorRun.mem_of_not_freed {live live' : List LiveRange} {es : List ShadowEntry}
    (h : AllocatorRun live es live') {r : LiveRange} (hr : r ∈ live)
    (hno : ∀ g ∈ es, ¬ Frees g r) : r ∈ live' := by
  induction h with
  | nil _ => exact hr
  | add r' _ _ _ _ _ _ ih =>
      exact ih (List.mem_cons_of_mem _ hr) fun g hg => hno g (List.mem_cons_of_mem _ hg)
  | @free live live' e es r₀ _ hop hptr _ ih =>
      apply ih
      · rw [List.mem_filter]
        refine ⟨hr, decide_eq_true fun heq => ?_⟩
        exact hno e (List.mem_cons_self ..) ⟨hop, hptr.trans heq.symm⟩
      · exact fun g hg => hno g (List.mem_cons_of_mem _ hg)
  | other _ _ _ ih => exact ih hr fun g hg => hno g (List.mem_cons_of_mem _ hg)

theorem RecordedFor.mem_live {env : Env} {es : List ShadowEntry} {r : LiveRange} {a : AllocId}
    {s : StateId} {x : Item} (h : RecordedFor env es r a s x) {live : List LiveRange}
    (hrun : AllocatorRun [] es live) : r ∈ live := by
  obtain ⟨pre, e, post, mid, rfl, hpre, hr, -, hrec, hno⟩ := h
  obtain ⟨mid', h₁, h₂⟩ := hrun.split
  rw [← hpre.det h₁] at h₂
  apply h₂.mem_of_not_freed hr
  intro g hg
  rcases List.mem_cons.mp hg with rfl | hg
  · -- a recording entry is no free
    intro hfree
    simp only [Records, hfree.1] at hrec
  · exact hno g hg

/-- One entry more: the item was recorded before and the range not
freed, or the entry records it. -/
theorem recordedFor_concat {env : Env} {es : List ShadowEntry} {e : ShadowEntry} {r : LiveRange}
    {a : AllocId} {s : StateId} {x : Item} (h : RecordedFor env (es ++ [e]) r a s x) :
    (RecordedFor env es r a s x ∧ ¬ Frees e r)
      ∨ Records env (processEntries env texasInit es) e a s x := by
  obtain ⟨pre, g, post, live, heq, hpre, hr, hc, hrec, hno⟩ := h
  rcases concat_eq_append_cons heq with ⟨rfl, rfl, -⟩ | ⟨post', rfl, hes⟩
  · exact Or.inr hrec
  · refine Or.inl ⟨⟨pre, g, post', live, hes, hpre, hr, hc, hrec, ?_⟩, ?_⟩
    · exact fun g hg => hno g (List.mem_append_left _ hg)
    · exact hno e (List.mem_append_right _ (List.mem_singleton.mpr rfl))

-- ============================================================== one entry

/-- What one entry keeps settled: everything but what it erases. -/
theorem settled_processEntry {env : Env} {rt : Runtime} (hinv : TableInv rt) (e : ShadowEntry)
    (a : AllocId) (s : StateId) (x : Item) :
    Settled (processEntry env rt e) a s x ↔
      Committed rt a s x ∨ (Pending rt a s x ∧ ¬ Erases env rt e a s) ∨ Records env rt e a s x := by
  have hspec := processEntry_spec env e hinv
  unfold Settled
  rw [hspec.pending, hspec.committed]
  by_cases hcom : Commits rt e a
  · tauto
  · have hno : ¬ Erases env rt e a s := fun h => hcom h.commits
    tauto

theorem processEntries_concat (env : Env) (rt : Runtime) (es : List ShadowEntry) (e : ShadowEntry) :
    processEntries env rt (es ++ [e]) = processEntry env (processEntries env rt es) e := by
  unfold processEntries
  rw [List.foldl_append]
  rfl

-- ============================================================== whole runs

/-- A run whose frees all spare the others keeps everything recorded
for a live range. -/
theorem settled_of_othersCommitted (env : Env) (es : List ShadowEntry) :
    ∀ {live : List LiveRange}, AllocatorRun [] es live →
      (∀ pre f post, es = pre ++ f :: post → OthersCommitted env pre f) →
      ∀ {r : LiveRange} {a : AllocId} {s : StateId} {x : Item}, RecordedFor env es r a s x →
        Settled (processEntries env texasInit es) a s x := by
  induction es using List.reverseRecOn with
  | nil =>
      intro live _ _ r a s x h
      obtain ⟨pre, e, post, _, heq, -⟩ := h
      simp at heq
  | append_singleton es e ih =>
      intro live hrun hcond r a s x h
      obtain ⟨mid, hes, hlast⟩ := hrun.split
      rw [processEntries_concat, settled_processEntry (tableInv_run env es tableInv_init)]
      rcases recordedFor_concat h with ⟨hold, hnot⟩ | hrec
      · have hsettled := ih hes (fun pre f post heq => hcond pre f (post ++ [e]) (by
          rw [heq]
          simp)) hold
        rcases hsettled with hcom | hpend
        · exact Or.inl hcom
        · by_cases herase : Erases env (processEntries env texasInit es) e a s
          · -- the free is of another range, so the condition applies
            obtain ⟨hop, hfind, hskips⟩ := herase
            cases hlast with
            | add _ hop' _ _ _ _ _ =>
                rw [hop] at hop'
                cases hop'
            | free r₀ hr₀ _ hptr _ =>
                have hne : r ≠ r₀ := by
                  intro heq
                  exact hnot ⟨hop, by rw [heq, hptr]⟩
                exact Or.inl (hcond es e [] rfl mid r₀ hes hr₀ ⟨hop, hptr⟩ r
                  (hold.mem_live hes) hne a s x hold hfind hskips)
            | other _ hfree _ => exact absurd hop hfree
          · exact Or.inr (Or.inl ⟨hpend, herase⟩)
      · exact Or.inr (Or.inr hrec)

/-- In every run: all frees leave the other live ranges' information
alone exactly when, at each, what the skip rule covers of it has been
committed. -/
theorem freesSpare_iff (env : Env) (es : List ShadowEntry) :
    (∀ pre f post, es = pre ++ f :: post → FreeSpares env pre f) ↔
      ∀ pre f post, es = pre ++ f :: post → OthersCommitted env pre f := by
  constructor
  · intro h pre f post heq live r₀ hrun hr₀ hfree r hr hne a s x hrec hfind hskips
    have hsettled := h pre f post heq live r₀ hrun hr₀ hfree r hr hne a s x hrec
    rw [processEntries_concat, settled_processEntry (tableInv_run env pre tableInv_init)] at hsettled
    rcases hsettled with hcom | ⟨-, herase⟩ | hnew
    · exact hcom
    · exact absurd ⟨hfree.1, hfind, hskips⟩ herase
    · simp only [Records, hfree.1] at hnew
  · intro h pre f post heq live r₀ hrun hr₀ hfree r hr hne a s x hrec
    have hbefore : ∀ pre' f' post', pre = pre' ++ f' :: post' → OthersCommitted env pre' f' := by
      intro pre' f' post' heq'
      apply h pre' f' (post' ++ f :: post)
      rw [heq, heq']
      simp
    rw [processEntries_concat, settled_processEntry (tableInv_run env pre tableInv_init)]
    rcases settled_of_othersCommitted env pre hrun hbefore hrec with hcom | hpend
    · exact Or.inl hcom
    · by_cases herase : Erases env (processEntries env texasInit pre) f a s
      · exact Or.inl (h pre f post heq live r₀ hrun hr₀ hfree r hr hne a s x hrec herase.2.1
          herase.2.2)
      · exact Or.inr (Or.inl ⟨hpend, herase⟩)

/-- In a ROI: a block is allocated and read, and the same site
allocates a second one. -/
def twoBlocks : List ShadowEntry :=
  [(SlotWrite.allocAdd 100 8 1 (some 0)).entry,
    { (SlotWrite.access .read 100 0).entry with
      operation := .stateAdd .input, sizeState := .statePtr 0 },
    (SlotWrite.allocAdd 200 8 1 (some 0)).entry]

/-- The free of the second block erases what was recorded for the
first, which stays live. -/
theorem not_freeSpares_twoBlocks :
    ¬ FreeSpares (Env.ofTree .flat) twoBlocks (SlotWrite.allocFree 200 (some 0)).entry := by
  let first : LiveRange := ⟨⟨100, 8, by decide, by decide⟩, 1⟩
  let second : LiveRange := ⟨⟨200, 8, by decide, by decide⟩, 1⟩
  have hfirst : AllocatorRun [] [(SlotWrite.allocAdd 100 8 1 (some 0)).entry] [first] :=
    .add first rfl rfl rfl rfl (fun r hr => absurd hr List.not_mem_nil) (.nil _)
  have hdisj : second.Disjoint first.toRange := by
    intro p hp hp'
    have h₁ := (Range.contains_iff.mp hp).1
    have h₂ := (Range.contains_iff.mp hp').2
    have h₃ : second.base.toNat = 200 := rfl
    have h₄ : first.base.toNat + first.length.toNat = 108 := rfl
    omega
  have hrun : AllocatorRun [] twoBlocks [second, first] := by
    apply hfirst.append
    refine .other (by decide) (by decide) (.add second rfl rfl rfl rfl ?_ (.nil _))
    intro r hr
    rw [List.mem_singleton.mp hr]
    exact hdisj
  have hrec : RecordedFor (Env.ofTree .flat) twoBlocks first 1 0 (.offset .input 0) := by
    refine ⟨_, _, _, [first], List.singleton_append.symm, hfirst, List.mem_singleton.mpr rfl,
      first.contains_base, ?_, ?_⟩
    · exact ⟨by decide, by decide, rfl, Or.inl ⟨.input, rfl, by decide⟩⟩
    · intro g hg hfree
      rw [List.mem_singleton.mp hg] at hfree
      exact absurd hfree.1 (by decide)
  intro h
  have hsettled := h [second, first] second hrun (List.mem_cons_self ..) ⟨rfl, rfl⟩ first
    (List.mem_cons_of_mem _ (List.mem_singleton.mpr rfl))
    (fun heq => absurd (congrArg (fun r : LiveRange => r.base) heq) (by decide))
    1 0 (.offset .input 0) hrec
  rcases hsettled with hcom | ⟨info, hinfo, -⟩
  · revert hcom
    unfold Committed StateSets.Holds
    decide
  · have hnone : (((processEntries (Env.ofTree .flat) texasInit
        (twoBlocks ++ [(SlotWrite.allocFree 200 (some 0)).entry])).allocs 1).stateCommitInfoMap
          0).isNone = true := by decide
    rw [hinfo] at hnone
    cases hnone

end Carmot.Texas
