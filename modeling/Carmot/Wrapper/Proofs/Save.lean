/-
When saving the results fails.

`printJSONWrapper_error`: an error of `PrintJSONWrapper` is the error of
one of its calls of `getAllocationToSave`, and those are the pairs of an
allocation and a state that `SavedIn` lists. Such a call fails on an
unknown id, the origin's or a use's, or on a missing record.

`savedIn_hasRecord_iff`: no call of a run meets a missing record exactly
when, after every free that erases the record of a state that has the
allocation as a key already, a later entry makes a new one.
-/
import Carmot.Texas.Proofs.Records
import Carmot.Wrapper.Save

namespace Carmot.Wrapper

open Carmot.Texas

-- ============================================================== the errors

theorem bind_eq_error {α β ε : Type} {x : Except ε α} {f : α → Except ε β} {err : ε}
    (h : x >>= f = .error err) : x = .error err ∨ ∃ v, x = .ok v ∧ f v = .error err := by
  cases x with
  | error err' =>
      injection h with h
      exact Or.inl (by rw [h])
  | ok v => exact Or.inr ⟨v, rfl, h⟩

/-- A traversal fails with the error of one of its elements. -/
theorem mapM_eq_error {α β ε : Type} {f : α → Except ε β} {err : ε} (xs : List α)
    (h : xs.mapM f = .error err) : ∃ x ∈ xs, f x = .error err := by
  induction xs with
  | nil => cases h
  | cons x xs ih =>
      rw [List.mapM_cons] at h
      rcases bind_eq_error h with h | ⟨_, -, h⟩
      · exact ⟨x, List.mem_cons_self .., h⟩
      rcases bind_eq_error h with h | ⟨_, -, h⟩
      · obtain ⟨z, hz, hfz⟩ := ih h
        exact ⟨z, List.mem_cons_of_mem _ hz, hfz⟩
      · cases h

theorem mem_inOrder {ids : Finset UInt64} {id : UInt64} : id ∈ inOrder ids ↔ id ∈ ids := by
  simp [inOrder]

/-- The ids `getAllocationToSave` looks up: the origin, and the uses
unless they are disabled. -/
def LooksUp (o : SaveOptions) (rt : Runtime) (a : AllocId) (s : StateId) (id : UInt64) : Prop :=
  id = (rt.allocs a).origin
    ∨ (o.disableStateUses = false ∧ ∃ ids, (rt.sets s).allocationInfo a = some ids ∧ id ∈ ids)

section Errors

variable {o : SaveOptions} {cs : Callstacks} {rt : Runtime}

theorem getTraceAndStaticID_error {id : UInt64} {err : SaveError}
    (h : getTraceAndStaticID o cs id = .error err) :
    err = .idNotFound id ∧ o.disableCallstack = false ∧ cs.dynamicTraces id = none := by
  unfold getTraceAndStaticID at h
  split at h
  · cases h
  next hdis =>
    split at h
    next hnone =>
      injection h with h
      exact ⟨h.symm, by simpa using hdis, hnone⟩
    · cases h

theorem getUseToSave_error {id : UInt64} {err : SaveError} (h : getUseToSave o cs id = .error err) :
    getTraceAndStaticID o cs id = .error err := by
  unfold getUseToSave at h
  rcases bind_eq_error h with h | ⟨_, -, h⟩
  · exact h
  · cases h

/-- A call fails on an id it looks up, or on a missing record. -/
theorem getAllocationToSave_error {a : AllocId} {offsets : Finset UInt64} {s : StateId}
    {err : SaveError} (h : getAllocationToSave o cs rt a offsets s = .error err) :
    (∃ id, LooksUp o rt a s id ∧ getTraceAndStaticID o cs id = .error err)
      ∨ (err = .noRecord ∧ ¬ HasRecord rt a s) := by
  unfold getAllocationToSave at h
  rcases bind_eq_error h with h | ⟨⟨trace, staticID⟩, -, h⟩
  · exact Or.inl ⟨_, Or.inl rfl, h⟩
  · cases hrec : (rt.allocs a).stateCommitInfoMap s with
    | none =>
        simp only [hrec] at h
        injection h with h
        refine Or.inr ⟨h.symm, ?_⟩
        simp [HasRecord, hrec]
    | some info =>
        simp only [hrec] at h
        split at h
        · cases h
        next huses =>
          cases hids : (rt.sets s).allocationInfo a with
          | none =>
              rw [hids] at h
              cases h
          | some ids =>
              rw [hids] at h
              rcases bind_eq_error h with h | ⟨_, -, h⟩
              · obtain ⟨id, hid, herr⟩ := mapM_eq_error _ h
                exact Or.inl ⟨id, Or.inr ⟨by simpa using huses, ids, hids, mem_inOrder.mp hid⟩,
                  getUseToSave_error herr⟩
              · cases h

theorem saveStateSet_error {stateSet : AllocationsSet} {s : StateId} {err : SaveError}
    (h : saveStateSet o cs rt stateSet s = .error err) :
    ∃ a offsets, stateSet a = some offsets
      ∧ getAllocationToSave o cs rt a offsets s = .error err := by
  obtain ⟨⟨a, offsets⟩, hmem, herr⟩ := mapM_eq_error _ h
  obtain ⟨b, -, hb⟩ := List.mem_filterMap.mp hmem
  obtain ⟨offs, hoffs, heq⟩ := Option.map_eq_some_iff.mp hb
  injection heq with h₁ h₂
  subst h₁ h₂
  exact ⟨b, offs, hoffs, herr⟩

/-- The seven sets are saved one after the other. -/
theorem saveState_error {s : StateId} {info : StateInfo} {err : SaveError}
    (h : saveState o cs rt s info = .error err) :
    ∃ c, saveStateSet o cs rt ((rt.sets s).finals c) s = .error err := by
  unfold saveState at h
  rcases bind_eq_error h with h | ⟨_, -, h⟩
  · exact ⟨.input, h⟩
  rcases bind_eq_error h with h | ⟨_, -, h⟩
  · exact ⟨.output, h⟩
  rcases bind_eq_error h with h | ⟨_, -, h⟩
  · exact ⟨.io, h⟩
  rcases bind_eq_error h with h | ⟨_, -, h⟩
  · exact ⟨.co, h⟩
  rcases bind_eq_error h with h | ⟨_, -, h⟩
  · exact ⟨.to, h⟩
  rcases bind_eq_error h with h | ⟨_, -, h⟩
  · exact ⟨.cio, h⟩
  rcases bind_eq_error h with h | ⟨_, -, h⟩
  · exact ⟨.tio, h⟩
  · cases h

/-- An error of `PrintJSONWrapper` is the error of one of its calls of
`getAllocationToSave`. -/
theorem printJSONWrapper_error {env : Env} {stateMap : StateMap} {err : SaveError}
    (h : printJSONWrapper o cs rt env stateMap = .error err) :
    ∃ a s offsets, SavedIn (reportStatistics env stateMap.ids rt) stateMap.ids a s
      ∧ getAllocationToSave o cs (reportStatistics env stateMap.ids rt) a offsets s = .error err := by
  unfold printJSONWrapper at h
  rcases bind_eq_error h with h | ⟨_, -, h⟩
  · obtain ⟨⟨info, s⟩, hmem, h⟩ := mapM_eq_error _ h
    rcases bind_eq_error h with h | ⟨_, -, h⟩
    · obtain ⟨c, h⟩ := saveState_error h
      obtain ⟨a, offsets, hfinal, h⟩ := saveStateSet_error h
      refine ⟨a, s, offsets, ⟨?_, c, offsets, hfinal⟩, h⟩
      obtain ⟨-, hlt, -⟩ := List.mem_zipIdx hmem
      exact List.mem_range.mpr (by simpa using hlt)
    · cases h
  · cases h

end Errors

-- ========================================================= missing records

/-- After every free that erases the record of a saved state on an
allocation the state has as a key already, a later entry makes a new
one. -/
def RecordedAgain (env : Env) (stateMap : List StateId) (es : List ShadowEntry) : Prop :=
  ∀ a, ∀ s ∈ stateMap, ∀ pre f post, es = pre ++ f :: post →
    Erases env (processEntries env texasInit pre) f a s →
    HasKey (processEntries env texasInit pre) a s →
      ∃ mid g rest, post = mid ++ g :: rest
        ∧ MakesRecord env (processEntries env texasInit (pre ++ f :: mid)) g a s

theorem recordedAgain_iff {env : Env} {stateMap : List StateId} {es : List ShadowEntry} :
    RecordedAgain env stateMap es ↔ ∀ a, ∀ s ∈ stateMap, ¬ ErasedForGood env es a s := by
  constructor
  · intro h a s hs hbad
    obtain ⟨pre, f, post, heq, herase, hkey, hlater⟩ := hbad
    obtain ⟨mid, g, rest, hpost, hmakes⟩ := h a s hs pre f post heq herase hkey
    exact hlater mid g rest hpost hmakes
  · intro h a s hs pre f post heq herase hkey
    by_contra hno
    refine h a s hs ⟨pre, f, post, heq, herase, hkey, ?_⟩
    intro mid g rest hpost hmakes
    exact hno ⟨mid, g, rest, hpost, hmakes⟩

theorem savedIn_iff {rt : Runtime} {stateMap : List StateId} {a : AllocId} {s : StateId} :
    SavedIn rt stateMap a s ↔ s ∈ stateMap ∧ FinalKey rt a s := by
  unfold SavedIn FinalKey
  simp only [Option.isSome_iff_exists]

/-- The calls after a report all find a record exactly when no key is
without one before it. -/
theorem savedIn_reportStatistics (env : Env) (stateMap : List StateId) (rt : Runtime) :
    (∀ a s, SavedIn (reportStatistics env stateMap rt) stateMap a s →
        HasRecord (reportStatistics env stateMap rt) a s) ↔
      ∀ a, ∀ s ∈ stateMap, ¬ (HasKey rt a s ∧ ¬ HasRecord rt a s) := by
  constructor
  · intro h a s hs hbad
    apply hbad.2
    rw [← hasRecord_reportStatistics env stateMap]
    apply h
    rw [savedIn_iff]
    exact ⟨hs, (finalKey_reportStatistics env rt a hs).1 hbad.1⟩
  · intro h a s hsaved
    rw [savedIn_iff] at hsaved
    rw [hasRecord_reportStatistics]
    rcases (finalKey_reportStatistics env rt a hsaved.1).2 hsaved.2 with hkey | hrec
    · by_contra hno
      exact h a s hsaved.1 ⟨hkey, hno⟩
    · exact hrec

/-- In every run: each call of `getAllocationToSave` finds the record it
reads exactly when every record that a free erased under a key was made
again. -/
theorem savedIn_hasRecord_iff (env : Env) (stateMap : List StateId) (bs : List Batch) :
    (∀ a s, SavedIn (reportStatistics env stateMap (runBatches env texasInit bs)) stateMap a s →
        HasRecord (reportStatistics env stateMap (runBatches env texasInit bs)) a s) ↔
      RecordedAgain env stateMap (executed env texasInit bs) := by
  rw [savedIn_reportStatistics, recordedAgain_iff]
  have hrun := runBatches_forget env bs texasInit
  rw [forget_init] at hrun
  apply forall_congr'
  intro a
  apply forall_congr'
  intro s
  rw [← key_without_record, ← hrun]
  exact Iff.rfl

/-- A ROI allocates a block and reads it; its next iteration frees the
block. -/
def freedAgain : List Batch :=
  [⟨[(SlotWrite.stateBegin 0).entry, (SlotWrite.allocAdd 100 8 1 (some 0)).entry,
      (SlotWrite.access .read 100 7).entry, (SlotWrite.stateEnd 0).entry,
      (SlotWrite.stateCommit 0).entry], .redundant⟩,
    ⟨[(SlotWrite.stateBegin 0).entry, (SlotWrite.allocFree 100 (some 0)).entry,
      (SlotWrite.stateEnd 0).entry], .redundant⟩]

/-- The free erases the record, the Final set keeps the block, and
saving dereferences the record that is gone. -/
theorem not_savedIn_hasRecord_freedAgain :
    let rt := reportStatistics (Env.ofTree .flat) [0]
      (runBatches (Env.ofTree .flat) texasInit freedAgain)
    SavedIn rt [0] 1 0 ∧ ¬ HasRecord rt 1 0
      ∧ ∀ cs offsets, getAllocationToSave ⟨true, false⟩ cs rt 1 offsets 0 = .error .noRecord := by
  intro rt
  have hnone : ((rt.allocs 1).stateCommitInfoMap 0).isNone = true := by decide
  refine ⟨⟨List.mem_singleton.mpr rfl, .input, {0}, by decide⟩, ?_, ?_⟩
  · simp [HasRecord, Option.isNone_iff_eq_none.mp hnone]
  · intro cs offsets
    unfold getAllocationToSave
    rw [Option.isNone_iff_eq_none.mp hnone]
    rfl

end Carmot.Wrapper
