/-
When the shadows agree with the one shadow: a batch with an entry for
every shadow, whose allocations, commits and cycle searches are all in
shadow 0's sub-range. The course of such a batch is in Shadows.lean;
here are the two ways out of it, both on the schedule in which each
shadow is through before its left neighbour starts.

A commit or cycle search of another shadow goes onto the queue of its
left neighbour, which empties that queue when it starts. It is never
performed, whatever else the batch holds.

A block of 8 bytes that another shadow allocates is hashed there, and
stays hashed when the tables are merged; the one shadow, whose table
has no mask lengths, would have put it into the ordered half.

Which addresses and lengths the allocations and frees of a batch have
is the program's choice and not the cleaner's, so both batches, the one
at hand and the one with such a block, are cleaned ones or neither is.
-/
import Carmot.Texas.Producer
import Carmot.Texas.Proofs.HashLookup
import Carmot.Texas.Proofs.Shadows

namespace Carmot.Texas

open Carmot.Lib (SortedMap)

namespace Shadows

variable {env : Env} {tid slot : Nat} {sh : Shadows}

-- ====================================================== what a slot changes

/-- All a shadow can do with a slot. -/
theorem processSlot_cases (env : Env) (tid : Nat) (sh : Shadows) (slot : Nat) :
    (tid ≠ 0 ∧ (sh.shadowEntries slot).operation.leftmostOnly = true
        ∧ processSlot env tid sh slot = sh.pushBack (tid - 1) slot)
      ∨ (tid ≠ 0 ∧ (sh.shadowEntries slot).operation.leftmostOnly = false
        ∧ misses env sh.rt.allocs (sh.table tid) (sh.shadowEntries slot) = true
        ∧ processSlot env tid sh slot = sh.pushBack tid slot)
      ∨ ((tid = 0 ∨ (sh.shadowEntries slot).operation.leftmostOnly = false)
        ∧ processSlot env tid sh slot = sh.perform env tid slot) := by
  unfold processSlot
  by_cases htid : tid = 0
  · exact Or.inr (Or.inr ⟨Or.inl htid, if_pos htid⟩)
  · rw [if_neg htid]
    by_cases hleft : (sh.shadowEntries slot).operation.leftmostOnly = true
    · exact Or.inl ⟨htid, hleft, if_pos hleft⟩
    · rw [if_neg hleft]
      have hright := Bool.eq_false_of_not_eq_true hleft
      by_cases hmiss : misses env sh.rt.allocs (sh.table tid) (sh.shadowEntries slot) = true
      · exact Or.inr (Or.inl ⟨htid, hright, hmiss, if_pos hmiss⟩)
      · exact Or.inr (Or.inr ⟨Or.inr hright, if_neg hmiss⟩)

/-- What a queue does not show and performing keeps. -/
theorem processSlot_keeps {P : Shadows → Prop} (hpush : ∀ queue, P (sh.pushBack queue slot))
    (hperform : P (sh.perform env tid slot)) : P (processSlot env tid sh slot) := by
  rcases processSlot_cases env tid sh slot with ⟨-, -, hp⟩ | ⟨-, -, -, hp⟩ | ⟨-, hp⟩
  · rw [hp]
    exact hpush (tid - 1)
  · rw [hp]
    exact hpush tid
  · rw [hp]
    exact hperform

@[simp] theorem overflowWork_setTable (t : AllocationTable) :
    (sh.setTable tid t).overflowWork = sh.overflowWork := by
  unfold setTable
  split
  · rfl
  · rfl

@[simp] theorem shadowEntries_setTable (t : AllocationTable) :
    (sh.setTable tid t).shadowEntries = sh.shadowEntries := by
  unfold setTable
  split
  · rfl
  · rfl

@[simp] theorem performed_setTable (t : AllocationTable) :
    (sh.setTable tid t).performed = sh.performed := by
  unfold setTable
  split
  · rfl
  · rfl

@[simp] theorem table_setTable_self (t : AllocationTable) : (sh.setTable tid t).table tid = t := by
  unfold setTable table
  by_cases htid : tid = 0
  · simp only [if_pos htid]
  · simp only [if_neg htid, Function.update_self]

theorem table_setTable_of_ne {k : Nat} (hk : k ≠ tid) (t : AllocationTable) :
    (sh.setTable tid t).table k = sh.table k := by
  unfold setTable table
  by_cases htid : tid = 0
  · simp only [if_pos htid]
    subst htid
    simp only [if_neg hk]
  · simp only [if_neg htid, Function.update_of_ne hk]

theorem table_perform_self : (sh.perform env tid slot).table tid
    = (processEntry env { sh.rt with allocationMap := sh.table tid }
        (sh.shadowEntries slot)).allocationMap := by
  unfold perform
  exact table_setTable_self _

theorem table_perform_of_ne {k : Nat} (hk : k ≠ tid) :
    (sh.perform env tid slot).table k = sh.table k := by
  unfold perform
  exact table_setTable_of_ne hk _

theorem overflowWork_perform : (sh.perform env tid slot).overflowWork = sh.overflowWork := by
  unfold perform
  simp

/-- The walk along the parents overwrites the state of an entry. -/
theorem leftAtRoot_keeps (env : Env) (e : ShadowEntry) :
    (leftAtRoot env e).operation = e.operation ∧ (leftAtRoot env e).ptr = e.ptr
      ∧ (e.operation = .allocAdd → leftAtRoot env e = e) := by
  unfold leftAtRoot
  cases (env.tree.chain? e.sizeState.getStatePtr).getLast? with
  | none => cases hop : e.operation <;> simp [hop]
  | some root => cases hop : e.operation <;> simp [hop] <;> split <;> simp [hop]

/-- A slot changes no table but the shadow's own. -/
theorem table_foldl_of_ne {k : Nat} (hk : k ≠ tid) (slots : List Nat) :
    (slots.foldl (processSlot env tid) sh).table k = sh.table k := by
  refine List.foldlRecOn (motive := fun sh' : Shadows => sh'.table k = sh.table k) slots _ rfl ?_
  intro sh' h slot _
  exact processSlot_keeps (P := fun sh' => sh'.table k = sh.table k) (fun _ => h)
    ((table_perform_of_ne hk).trans h)

/-- A slot is passed on within the shadow and to its left. -/
theorem overflowWork_foldl_of_lt {k : Nat} (hk : tid < k) (slots : List Nat) :
    (slots.foldl (processSlot env tid) sh).overflowWork k = sh.overflowWork k := by
  refine List.foldlRecOn (motive := fun sh' : Shadows => sh'.overflowWork k = sh.overflowWork k)
    slots _ rfl ?_
  intro sh' h slot _
  rcases processSlot_cases env tid sh' slot with ⟨-, -, hp⟩ | ⟨-, -, -, hp⟩ | ⟨-, hp⟩
  · rw [hp]
    exact (Function.update_of_ne (by omega) ..).trans h
  · rw [hp]
    exact (Function.update_of_ne (by omega) ..).trans h
  · rw [hp, overflowWork_perform]
    exact h

-- ========================================================== right to left

/-- Both halves of a shadow, one after the other. -/
def bothHalves (env : Env) (numShadows numEntries tid : Nat) (sh : Shadows) : Shadows :=
  let sh := { sh.processPart env tid (subRange numShadows numEntries tid) with
    phase := Function.update sh.phase tid (if tid + 1 = numShadows then .done else .looped) }
  if tid + 1 < numShadows then
    { sh.mergeRight env tid with phase := Function.update sh.phase tid .done }
  else sh

/-- The turns of the shadows left of `k`, from the right: each is
through before the next starts. -/
def rightFirst (numShadows : Nat) : Nat → List Turn
  | 0 => []
  | k + 1 => (if k + 1 < numShadows then [.loop k, .merge k] else [.loop k])
      ++ rightFirst numShadows k

/-- The shadows from `k` on are done and no other has started. -/
structure Through (numShadows k : Nat) (sh : Shadows) : Prop where
  start : ∀ tid < k, sh.phase tid = .start
  done : ∀ tid, k ≤ tid → tid < numShadows → sh.phase tid = .done

theorem run_append (env : Env) (numShadows numEntries : Nat) (sh : Shadows)
    (turns turns' : List Turn) :
    sh.run env numShadows numEntries (turns ++ turns')
      = (sh.run env numShadows numEntries turns).bind
          (fun sh => sh.run env numShadows numEntries turns') :=
  List.foldlM_append

variable {numShadows numEntries k : Nat}

/-- The next shadow to the left takes its turns. -/
theorem run_bothHalves (h : Through numShadows (k + 1) sh) (hk : k < numShadows) :
    sh.run env numShadows numEntries
        (if k + 1 < numShadows then [.loop k, .merge k] else [.loop k])
      = some (bothHalves env numShadows numEntries k sh)
    ∧ Through numShadows k (bothHalves env numShadows numEntries k sh) := by
  have hstart := h.start k (Nat.lt_succ_self k)
  have hloop : sh.step env numShadows numEntries (.loop k)
      = some { sh.processPart env k (subRange numShadows numEntries k) with
          phase := Function.update sh.phase k
            (if k + 1 = numShadows then .done else .looped) } := by
    simp only [step]
    exact if_pos ⟨hk, hstart⟩
  -- whichever of its turns is the last one leaves the shadow done
  have hthrough : ∀ sh' : Shadows, sh'.phase = Function.update sh.phase k .done →
      Through numShadows k sh' := by
    intro sh' hphase
    refine ⟨fun tid htid => ?_, fun tid hle htid => ?_⟩
    · rw [hphase, Function.update_of_ne (Nat.ne_of_lt htid)]
      exact h.start tid (Nat.lt_succ_of_lt htid)
    · by_cases heq : tid = k
      · rw [hphase, heq, Function.update_self]
      · rw [hphase, Function.update_of_ne heq]
        exact h.done tid (Nat.lt_of_le_of_ne hle (Ne.symm heq)) htid
  unfold bothHalves run
  by_cases hlt : k + 1 < numShadows
  · simp only [if_neg (Nat.ne_of_lt hlt)] at hloop ⊢
    simp only [if_pos hlt, List.foldlM_cons, List.foldlM_nil, hloop, Option.bind_eq_bind,
      Option.bind_some]
    have hright : Function.update sh.phase k ShadowPhase.looped (k + 1) = .done := by
      rw [Function.update_of_ne (Nat.succ_ne_self k)]
      exact h.done (k + 1) (Nat.le_refl _) hlt
    refine ⟨?_, hthrough _ (Function.update_idem ..)⟩
    simp only [step, Function.update_self, hright, and_self, if_true]
    rfl
  · have hlast : k + 1 = numShadows := by omega
    simp only [if_pos hlast] at hloop ⊢
    simp only [if_neg hlt, List.foldlM_cons, List.foldlM_nil, hloop, Option.bind_eq_bind,
      Option.bind_some]
    exact ⟨rfl, hthrough _ rfl⟩

/-- What holds shadow after shadow holds at the end. -/
theorem run_rightFirst {J : Nat → Shadows → Prop}
    (hJ : ∀ k sh, k < numShadows → J (k + 1) sh → J k (bothHalves env numShadows numEntries k sh)) :
    ∀ k sh, k ≤ numShadows → Through numShadows k sh → J k sh →
      ∃ sh', sh.run env numShadows numEntries (rightFirst numShadows k) = some sh'
        ∧ Through numShadows 0 sh' ∧ J 0 sh' := by
  intro k
  induction k with
  | zero => intro sh _ h hj; exact ⟨sh, rfl, h, hj⟩
  | succ k ih =>
      intro sh hk h hj
      obtain ⟨hrun, hthrough⟩ := run_bothHalves h hk
      obtain ⟨sh', hrun', hend⟩ := ih _ (Nat.le_of_succ_le hk) hthrough (hJ k sh hk hj)
      refine ⟨sh', ?_, hend⟩
      unfold rightFirst
      rw [run_append, hrun]
      exact hrun'

/-- The same from the start, with a batch's threads run to their end. -/
theorem exists_rightFirst {entries : List ShadowEntry} {past : Nat → ShadowEntry} {rt : Runtime}
    {J : Nat → Shadows → Prop} (hpos : 0 < numShadows)
    (hJ : ∀ k sh, k < numShadows → J (k + 1) sh →
      J k (bothHalves env numShadows entries.length k sh))
    (hinit : J numShadows (.init rt entries past)) :
    ∃ turns sh, Shadows.run env numShadows entries.length (.init rt entries past) turns = some sh
      ∧ sh.phase 0 = .done ∧ J 0 sh := by
  have hstart : Through numShadows numShadows (.init rt entries past) :=
    ⟨fun _ _ => rfl, fun tid hle hlt => absurd hlt (Nat.not_lt.mpr hle)⟩
  obtain ⟨sh, hrun, hthrough, hj⟩ :=
    run_rightFirst hJ numShadows (.init rt entries past) (Nat.le_refl _) hstart hinit
  exact ⟨_, sh, hrun, hthrough.done 0 (Nat.le_refl 0) hpos, hj⟩

/-- The tables of a shadow and its right neighbour, merged. -/
def merged (k : Nat) (sh : Shadows) : Shadows :=
  (sh.setTable k (mergeTable (sh.table k) (sh.table (k + 1)) true)).setTable (k + 1)
    (clear (sh.table (k + 1)))

/-- What holds after both halves: from what holds after the loop, by
way of the merge of the tables, and kept by every slot of the right
neighbour's queue. -/
theorem bothHalves_induction {Q P : Shadows → Prop}
    (hQ : ∀ (sh : Shadows) (phase : Nat → ShadowPhase), Q sh → Q { sh with phase := phase })
    (hP : ∀ (sh : Shadows) (phase : Nat → ShadowPhase), P sh → P { sh with phase := phase })
    (hloop : Q (sh.processPart env k (subRange numShadows numEntries k)))
    (hlast : ∀ sh : Shadows, Q sh → ¬ k + 1 < numShadows → P sh)
    (hmerge : ∀ sh : Shadows, Q sh → k + 1 < numShadows → P (sh.merged k))
    (hslot : ∀ sh' : Shadows, P sh' → ∀ i ∈ sh.overflowWork (k + 1),
      P (processSlot env k sh' i)) :
    P (bothHalves env numShadows numEntries k sh) := by
  have hlooped := fun phase => hQ _ phase hloop
  have hqueue : (sh.processPart env k (subRange numShadows numEntries k)).overflowWork (k + 1)
      = sh.overflowWork (k + 1) := by
    unfold processPart
    rw [overflowWork_foldl_of_lt (Nat.lt_succ_self k)]
    exact Function.update_of_ne (Nat.succ_ne_self k) ..
  unfold bothHalves
  by_cases hlt : k + 1 < numShadows
  · simp only [if_pos hlt]
    refine hP _ _ (List.foldlRecOn _ _ (hmerge _ (hlooped _) hlt) ?_)
    intro sh' h i hi
    refine hslot sh' h i ?_
    rw [overflowWork_setTable, overflowWork_setTable] at hi
    rw [← hqueue]
    exact hi
  · simp only [if_neg hlt]
    exact hlast _ (hlooped _) hlt

-- ======================================================== a lost commit

/-- A commit or cycle search that was not performed and waits in no
queue that is still read. -/
structure Lost (commit tid : Nat) (sh : Shadows) : Prop where
  performed : commit ∉ sh.performed
  queue : commit ∉ sh.overflowWork tid
  leftmostOnly : (sh.shadowEntries commit).operation.leftmostOnly = true

/-- Only shadow 0 performs it. -/
theorem Lost.processSlot {commit : Nat} (h : Lost commit tid sh) (hslot : tid = 0 → slot ≠ commit) :
    Lost commit tid (processSlot env tid sh slot) := by
  rcases processSlot_cases env tid sh slot with ⟨hne, -, hp⟩ | ⟨-, hleft, -, hp⟩ | ⟨hleft, hp⟩
  · -- passed on to the left, which is not this queue
    rw [hp]
    refine ⟨h.performed, ?_, h.leftmostOnly⟩
    have hqueue : (sh.pushBack (tid - 1) slot).overflowWork tid = sh.overflowWork tid :=
      Function.update_of_ne (by omega) ..
    rw [hqueue]
    exact h.queue
  · rw [hp]
    refine ⟨h.performed, ?_, h.leftmostOnly⟩
    have hqueue : (sh.pushBack tid slot).overflowWork tid = sh.overflowWork tid ++ [slot] :=
      Function.update_self ..
    rw [hqueue, List.mem_append, List.mem_singleton, not_or]
    refine ⟨h.queue, ?_⟩
    rintro rfl
    rw [h.leftmostOnly] at hleft
    cases hleft
  · have hne : commit ≠ slot := by
      rintro rfl
      rcases hleft with htid | hleft
      · exact hslot htid rfl
      · rw [h.leftmostOnly] at hleft
        cases hleft
    rw [hp]
    refine ⟨?_, ?_, ?_⟩
    · show commit ∉ sh.performed ++ [slot]
      rw [List.mem_append, List.mem_singleton, not_or]
      exact ⟨h.performed, hne⟩
    · rw [overflowWork_perform]
      exact h.queue
    · have hentry : (sh.perform env tid slot).shadowEntries commit = sh.shadowEntries commit :=
        Function.update_of_ne hne ..
      rw [hentry]
      exact h.leftmostOnly

theorem Lost.foldl {commit : Nat} (h : Lost commit tid sh) {slots : List Nat}
    (hslots : tid = 0 → commit ∉ slots) :
    Lost commit tid (slots.foldl (Shadows.processSlot env tid) sh) := by
  refine List.foldlRecOn slots _ h fun sh' h' slot hslot => h'.processSlot fun htid heq => ?_
  rw [heq] at hslot
  exact hslots htid hslot

/-- A shadow that starts after its right neighbour is done empties the
queue the commit was passed on to. -/
theorem Lost.bothHalves {commit : Nat} (h : Lost commit (k + 1) sh)
    (hout : commit ∉ subRange numShadows numEntries 0) :
    Lost commit k (bothHalves env numShadows numEntries k sh) := by
  have hemptied : Lost commit k
      { sh with overflowWork := Function.update sh.overflowWork k [] } := by
    refine ⟨h.performed, ?_, h.leftmostOnly⟩
    show commit ∉ Function.update sh.overflowWork k [] k
    rw [Function.update_self]
    exact List.not_mem_nil
  have hphase : ∀ (sh : Shadows) (phase : Nat → ShadowPhase), Lost commit k sh →
      Lost commit k { sh with phase := phase } :=
    fun _ _ h => ⟨h.performed, h.queue, h.leftmostOnly⟩
  refine bothHalves_induction hphase hphase (hemptied.foldl (by rintro rfl; exact hout))
    (fun _ h _ => h) (fun sh' h' _ => ?_) (fun sh' h' i hi => h'.processSlot ?_)
  · refine ⟨?_, ?_, ?_⟩
    · simp only [merged, performed_setTable]
      exact h'.performed
    · simp only [merged, overflowWork_setTable]
      exact h'.queue
    · simp only [merged, shadowEntries_setTable]
      exact h'.leftmostOnly
  · rintro - rfl
    exact h.queue hi

/-- Nobody performs a commit or cycle search right of shadow 0's, when
the shadows take their turns from the right. -/
theorem exists_lost {entries : List ShadowEntry} {past : Nat → ShadowEntry} {rt : Runtime}
    (hpos : 0 < numShadows) {commit : Nat} {e : ShadowEntry}
    (hout : commit ∉ subRange numShadows entries.length 0) (he : entries[commit]? = some e)
    (hop : e.operation.leftmostOnly = true) :
    ∃ turns sh, Shadows.run env numShadows entries.length (.init rt entries past) turns = some sh
      ∧ sh.phase 0 = .done ∧ commit ∉ sh.performed := by
  have hinit : Lost commit numShadows (.init rt entries past) := by
    refine ⟨List.not_mem_nil, List.not_mem_nil, ?_⟩
    show (entries[commit]?.getD (past commit)).operation.leftmostOnly = true
    rw [he]
    exact hop
  obtain ⟨turns, sh, hrun, hdone, hlost⟩ :=
    exists_rightFirst (J := Lost commit) hpos (fun k sh _ h => h.bothHalves hout) hinit
  exact ⟨turns, sh, hrun, hdone, hlost.performed⟩

-- ======================================================= a hashed block

/-- Slot `j` allocates 8 bytes at `p`, which nobody frees; the shadows
other than 0 hash such a block. -/
structure Eight (p : Addr) (j : Nat) (sh : Shadows) : Prop where
  kept : ∀ i, (sh.shadowEntries i).operation = .allocFree → (sh.shadowEntries i).ptr ≠ p
  add : (sh.shadowEntries j).operation = .allocAdd
  ptr : (sh.shadowEntries j).ptr = p
  size : (sh.shadowEntries j).sizeState.getSize = 8
  lengths : ∀ tid, tid ≠ 0 → (sh.table tid).maskLengths = [8]

/-- The block is in the hash half of a shadow's table. -/
def HashedAt (p : Addr) (tid : Nat) (sh : Shadows) : Prop :=
  ((sh.table tid).hashAllocationTable.find? p).isSome = true

section Hashed

variable {p : Addr} {j : Nat}

/-- Performing a slot leaves of an entry what matters here. -/
theorem Eight.perform (h : Eight p j sh) : Eight p j (sh.perform env tid slot) := by
  have hentry : ∀ i, ∃ e, (sh.perform env tid slot).shadowEntries i = e
      ∧ e.operation = (sh.shadowEntries i).operation ∧ e.ptr = (sh.shadowEntries i).ptr
      ∧ ((sh.shadowEntries i).operation = .allocAdd → e = sh.shadowEntries i) := by
    intro i
    refine ⟨_, rfl, ?_⟩
    show (Function.update sh.shadowEntries slot _ i).operation = _
      ∧ (Function.update sh.shadowEntries slot _ i).ptr = _
      ∧ (_ → Function.update sh.shadowEntries slot _ i = _)
    by_cases hi : i = slot
    · subst hi
      rw [Function.update_self]
      split
      · exact ⟨rfl, rfl, fun _ => rfl⟩
      · exact leftAtRoot_keeps env _
    · rw [Function.update_of_ne hi]
      exact ⟨rfl, rfl, fun _ => rfl⟩
  have hself : (sh.perform env tid slot).shadowEntries j = sh.shadowEntries j := by
    obtain ⟨e, he, -, -, hsame⟩ := hentry j
    rw [he]
    exact hsame h.add
  refine ⟨fun i hfree => ?_, by rw [hself]; exact h.add, by rw [hself]; exact h.ptr,
    by rw [hself]; exact h.size, fun k hk => ?_⟩
  · obtain ⟨e, he, hop, hptr, -⟩ := hentry i
    rw [he] at hfree ⊢
    rw [hptr]
    exact h.kept i (hop.symm.trans hfree)
  · by_cases hkt : k = tid
    · subst hkt
      rw [table_perform_self, (masks_processEntry env _ _).2]
      exact h.lengths k hk
    · rw [table_perform_of_ne hkt]
      exact h.lengths k hk

theorem Eight.processSlot (h : Eight p j sh) : Eight p j (processSlot env tid sh slot) :=
  processSlot_keeps (fun _ => ⟨h.kept, h.add, h.ptr, h.size, h.lengths⟩) h.perform

/-- A hashed block stays hashed. -/
theorem HashedAt.processSlot (hhash : HashedAt p tid sh) (h : Eight p j sh) :
    HashedAt p tid (processSlot env tid sh slot) := by
  refine processSlot_keeps (fun _ => hhash) ?_
  unfold HashedAt
  rw [table_perform_self]
  rcases table_processEntry env { sh.rt with allocationMap := sh.table tid }
    (sh.shadowEntries slot) with htab | ⟨-, allocs, a, -, htab⟩ | ⟨hfree, htab⟩
  · rw [htab]
    exact hhash
  · rw [htab]
    exact hash_insertAllocation allocs _ _ a hhash
  · rw [htab, hash_deleteAllocation _ _ (Ne.symm (h.kept slot hfree))]
    exact hhash

/-- The allocation itself hashes it. -/
theorem Eight.hashedAt (h : Eight p j sh) (htid : tid ≠ 0) :
    HashedAt p tid (Shadows.processSlot env tid sh j) := by
  have hleft : (sh.shadowEntries j).operation.leftmostOnly = false := by
    rw [h.add]
    rfl
  have hmiss : misses env sh.rt.allocs (sh.table tid) (sh.shadowEntries j) = false := by
    unfold misses lookedUp
    rw [h.add]
  rcases processSlot_cases env tid sh j with ⟨-, hl, -⟩ | ⟨-, -, hm, -⟩ | ⟨-, hp⟩
  · rw [hleft] at hl
    cases hl
  · rw [hmiss] at hm
    cases hm
  · rw [hp]
    unfold HashedAt
    rw [table_perform_self, processEntry_allocAdd _ h.add]
    obtain ⟨allocs, a, hlen, htab⟩ := table_processAddAlloc env
      { sh.rt with allocationMap := sh.table tid } (sh.shadowEntries j)
    rw [htab, h.ptr]
    refine hash_insertAllocation_self allocs _ p a ?_
    rw [hlen, h.size]
    show 8 ∈ (sh.table tid).maskLengths
    rw [h.lengths tid htid]
    exact List.mem_singleton.mpr rfl

/-- So it is hashed after a sub-range that holds the allocation, and
after every list of slots when it was before. -/
theorem Eight.foldl (slots : List Nat) :
    ∀ {sh : Shadows}, Eight p j sh → Eight p j (slots.foldl (Shadows.processSlot env tid) sh)
      ∧ (HashedAt p tid sh ∨ tid ≠ 0 ∧ j ∈ slots →
          HashedAt p tid (slots.foldl (Shadows.processSlot env tid) sh)) := by
  induction slots with
  | nil =>
      intro sh h
      refine ⟨h, fun hor => ?_⟩
      rcases hor with hhash | ⟨-, hmem⟩
      · exact hhash
      · exact absurd hmem List.not_mem_nil
  | cons i slots ih =>
      intro sh h
      obtain ⟨h', hhash'⟩ := ih (@Eight.processSlot env tid i sh p j h)
      refine ⟨h', fun hor => hhash' ?_⟩
      rcases hor with hhash | ⟨htid, hmem⟩
      · exact Or.inl (hhash.processSlot h)
      · rcases List.mem_cons.mp hmem with rfl | hmem
        · exact Or.inl (h.hashedAt htid)
        · exact Or.inr ⟨htid, hmem⟩

/-- A merge forgets no hashed block of either table. -/
theorem Eight.merged (h : Eight p j sh) : Eight p j (sh.merged k)
    ∧ (HashedAt p k sh ∨ HashedAt p (k + 1) sh → HashedAt p k (sh.merged k)) := by
  have hself : (sh.merged k).table k = mergeTable (sh.table k) (sh.table (k + 1)) true := by
    unfold Shadows.merged
    rw [table_setTable_of_ne (Nat.ne_of_lt (Nat.lt_succ_self k)), table_setTable_self]
  have hright : (sh.merged k).table (k + 1) = clear (sh.table (k + 1)) := table_setTable_self _
  have hother : ∀ i, i ≠ k → i ≠ k + 1 → (sh.merged k).table i = sh.table i := by
    intro i hi hi'
    unfold Shadows.merged
    rw [table_setTable_of_ne hi', table_setTable_of_ne hi]
  have hentries : (sh.merged k).shadowEntries = sh.shadowEntries := by
    simp only [Shadows.merged, shadowEntries_setTable]
  refine ⟨⟨?_, ?_, ?_, ?_, fun i hi => ?_⟩, fun hor => ?_⟩
  · rw [hentries]
    exact h.kept
  · rw [hentries]
    exact h.add
  · rw [hentries]
    exact h.ptr
  · rw [hentries]
    exact h.size
  · by_cases hik : i = k
    · rw [hik, hself]
      rw [hik] at hi
      exact h.lengths k hi
    · by_cases hik' : i = k + 1
      · rw [hik', hright]
        exact h.lengths (k + 1) (Nat.succ_ne_zero k)
      · rw [hother i hik hik']
        exact h.lengths i hi
  · unfold HashedAt
    rw [hself]
    show (((sh.table k).hashAllocationTable.merge
      (sh.table (k + 1)).hashAllocationTable true).find? p).isSome = true
    rw [SortedMap.find?_merge, if_pos rfl, Option.isSome_or, Bool.or_eq_true]
    exact hor.symm

/-- From the shadow that allocates it, the block goes left table by
table. -/
theorem Eight.bothHalves {owner : Nat} (hne : owner ≠ 0) (hlt : owner < numShadows)
    (hj : j ∈ subRange numShadows numEntries owner) (h : Eight p j sh)
    (hhash : k + 1 ≤ owner → HashedAt p (k + 1) sh) :
    Eight p j (bothHalves env numShadows numEntries k sh)
      ∧ (k ≤ owner → HashedAt p k (Shadows.bothHalves env numShadows numEntries k sh)) := by
  have hemptied : Eight p j { sh with overflowWork := Function.update sh.overflowWork k [] } :=
    ⟨h.kept, h.add, h.ptr, h.size, h.lengths⟩
  have hphase : ∀ (sh : Shadows) (phase : Nat → ShadowPhase), Eight p j sh →
      Eight p j { sh with phase := phase } :=
    fun _ _ h => ⟨h.kept, h.add, h.ptr, h.size, h.lengths⟩
  obtain ⟨hloop, hown⟩ := @Eight.foldl env k p j (subRange numShadows numEntries k) _ hemptied
  refine bothHalves_induction
    (Q := fun sh => Eight p j sh
      ∧ (k ≤ owner → HashedAt p k sh ∨ k < owner ∧ HashedAt p (k + 1) sh))
    (P := fun sh => Eight p j sh ∧ (k ≤ owner → HashedAt p k sh))
    (fun _ _ h => ⟨hphase _ _ h.1, h.2⟩) (fun _ _ h => ⟨hphase _ _ h.1, h.2⟩) ⟨hloop, fun hle => ?_⟩
    (fun _ h hlast => ⟨h.1, fun hle => ?_⟩) (fun _ h _ => ?_)
    (fun _ h i _ => ⟨h.1.processSlot, fun hle => (h.2 hle).processSlot h.1⟩)
  · rcases Nat.eq_or_lt_of_le hle with heq | hlt'
    · subst heq
      exact Or.inl (hown (Or.inr ⟨hne, hj⟩))
    · refine Or.inr ⟨hlt', ?_⟩
      unfold HashedAt Shadows.processPart
      rw [table_foldl_of_ne (Nat.succ_ne_self k)]
      exact hhash hlt'
  · rcases h.2 hle with hhere | ⟨hlt', -⟩
    · exact hhere
    · exact absurd (Nat.lt_of_le_of_lt hlt' hlt) hlast
  · refine ⟨h.1.merged.1, fun hle => h.1.merged.2 ?_⟩
    rcases h.2 hle with hhere | ⟨-, hright⟩
    · exact Or.inl hhere
    · exact Or.inr hright

/-- A block of 8 bytes that another shadow allocates ends up in the
hash half of the global table, when the shadows take their turns from
the right. -/
theorem exists_hashed {entries : List ShadowEntry} {past : Nat → ShadowEntry} {rt : Runtime}
    {owner : Nat} (hne : owner ≠ 0) (hlt : owner < numShadows)
    (hj : j ∈ subRange numShadows entries.length owner)
    (h : Eight p j (.init rt entries past)) :
    ∃ turns sh, Shadows.run env numShadows entries.length (.init rt entries past) turns = some sh
      ∧ sh.phase 0 = .done
      ∧ (sh.rt.allocationMap.hashAllocationTable.find? p).isSome = true := by
  obtain ⟨turns, sh, hrun, hdone, -, hhash⟩ :=
    exists_rightFirst (J := fun k sh => Eight p j sh ∧ (k ≤ owner → HashedAt p k sh))
      (Nat.lt_of_le_of_lt (Nat.zero_le owner) hlt)
      (fun k sh _ h => h.1.bothHalves hne hlt hj h.2)
      ⟨h, fun hle => absurd hlt (Nat.not_lt.mpr hle)⟩
  exact ⟨turns, sh, hrun, hdone, hhash (Nat.zero_le owner)⟩

end Hashed

-- ================================================ between two batches

/-- The global table between two batches, and the mask every other
shadow's table has. -/
structure Masked (sh : Shadows) : Prop where
  global : (sh.table 0).BetweenBatches
  others : ∀ tid, tid ≠ 0 → maskForLength 8 ∈ (sh.table tid).masks

theorem Masked.processSlot (h : Masked sh) : Masked (processSlot env tid sh slot) := by
  refine processSlot_keeps (fun _ => ⟨h.global, h.others⟩) ⟨?_, fun k hk => ?_⟩
  · by_cases htid : 0 = tid
    · subst htid
      rw [table_perform_self]
      exact h.global.processEntry env _
    · rw [table_perform_of_ne htid]
      exact h.global
  · by_cases hkt : k = tid
    · subst hkt
      rw [table_perform_self, (masks_processEntry env _ _).1]
      exact h.others k hk
    · rw [table_perform_of_ne hkt]
      exact h.others k hk

theorem Masked.merged (h : Masked sh) : Masked (sh.merged k) := by
  have hmask : maskForLength 8
      ∈ (mergeTable (sh.table k) (sh.table (k + 1)) true).masks :=
    mem_foldl_insert.mpr (Or.inr (h.others (k + 1) (Nat.succ_ne_zero k)))
  unfold Shadows.merged
  refine ⟨?_, fun i hi => ?_⟩
  · rw [table_setTable_of_ne (Nat.succ_ne_zero k).symm]
    by_cases hk : 0 = k
    · subst hk
      rw [table_setTable_self]
      exact ⟨h.global.maskLengths_nil, Or.inr hmask⟩
    · rw [table_setTable_of_ne hk]
      exact h.global
  · by_cases hik : i = k + 1
    · subst hik
      rw [table_setTable_self]
      exact h.others (k + 1) hi
    · rw [table_setTable_of_ne hik]
      by_cases hik' : i = k
      · subst hik'
        rw [table_setTable_self]
        exact hmask
      · rw [table_setTable_of_ne hik']
        exact h.others i hi

theorem Masked.step (h : Masked sh) {turn : Turn} {sh' : Shadows}
    (hstep : sh.step env numShadows numEntries turn = some sh') : Masked sh' := by
  cases turn with
  | loop tid =>
      obtain ⟨-, -, rfl⟩ := step_loop hstep
      have hloop : Masked (sh.processPart env tid (subRange numShadows numEntries tid)) :=
        List.foldlRecOn _ _ ⟨h.global, h.others⟩ fun _ h' _ _ => h'.processSlot
      exact ⟨hloop.global, hloop.others⟩
  | merge tid =>
      obtain ⟨-, -, rfl⟩ := step_merge hstep
      have hmerge : Masked (sh.mergeRight env tid) :=
        List.foldlRecOn _ _ h.merged fun _ h' _ _ => h'.processSlot
      exact ⟨hmerge.global, hmerge.others⟩

/-- A batch leaves the global table as it has to be for the next one. -/
theorem betweenBatches_run {rt : Runtime} {entries : List ShadowEntry} {past : Nat → ShadowEntry}
    (hglobal : rt.allocationMap.BetweenBatches) {turns : List Turn} {sh : Shadows}
    (hrun : Shadows.run env numShadows entries.length (.init rt entries past) turns = some sh) :
    sh.rt.allocationMap.BetweenBatches := by
  have hkeep : ∀ (turns : List Turn) (sh₀ : Shadows), Masked sh₀ →
      sh₀.run env numShadows entries.length turns = some sh → Masked sh := by
    intro turns
    induction turns with
    | nil => intro sh₀ h hrun; cases hrun; exact h
    | cons turn turns ih =>
        intro sh₀ h hrun
        obtain ⟨sh₁, hstep, hrun⟩ := Option.bind_eq_some_iff.mp hrun
        exact ih sh₁ (h.step hstep) hrun
  refine (hkeep turns (.init rt entries past) ⟨hglobal, fun tid htid => ?_⟩ hrun).global
  rw [table_of_ne htid]
  exact List.mem_singleton.mpr rfl

end Shadows

-- ======================================================= cleaned batches

/-- What `cleanBatch` leaves of some batch. -/
def Cleaned (env : Env) (entries : List ShadowEntry) : Prop :=
  ∃ rt raw, (cleanBatch env rt raw).2 = entries

/-- The same entry, up to the block an `ALLOC_ADD` or an `ALLOC_FREE`
names. -/
def ShadowEntry.SameButBlock (e e' : ShadowEntry) : Prop :=
  e' = e ∨ ((e.operation = .allocAdd ∨ e.operation = .allocFree)
    ∧ ∃ ptr size, e' = { e with ptr := ptr, sizeState := size })

theorem ShadowEntry.SameButBlock.operation {e e' : ShadowEntry} (h : e.SameButBlock e') :
    e'.operation = e.operation := by
  rcases h with rfl | ⟨-, ptr, size, rfl⟩
  · rfl
  · rfl

section Cleaning

variable {env : Env} {o : Options} {ptrs : StateId → StatePtrs}

/-- The cleaner passes over allocations and frees. -/
theorem clean_block {e : ShadowEntry} (h : e.operation = .allocAdd ∨ e.operation = .allocFree)
    (cl : Cleaner) : cleanEntry env cl e = (cl, e) ∧ reassignEntry o ptrs e = e := by
  have hop : e.operation.access? = none ∧ e.operation ≠ .stateBegin ∧ e.operation ≠ .stateEnd := by
    rcases h with h | h
    · rw [h]
      decide
    · rw [h]
      decide
  have hacc : e.operation.isAccess = false := by
    unfold Operation.isAccess
    rw [hop.1]
    rfl
  refine ⟨cleanEntry_other hop.1 hop.2.1 hop.2.2, ?_⟩
  unfold reassignEntry
  rw [if_neg (by rw [hacc]; exact Bool.false_ne_true)]

theorem operation_reassignEntry (e : ShadowEntry) :
    (reassignEntry o ptrs e).operation = e.operation
      ∨ (reassignEntry o ptrs e).operation = .redundant
      ∨ ∃ c, (reassignEntry o ptrs e).operation = .stateAdd c := by
  have hdrop : (dropAccess o e).operation = e.operation
      ∨ (dropAccess o e).operation = .redundant := by
    unfold dropAccess
    split
    · exact Or.inl rfl
    · exact Or.inr rfl
  unfold reassignEntry
  split
  · split
    · exact Or.inl rfl
    · split
      · exact hdrop.imp_right Or.inl
      · split
        · exact Or.inr (Or.inr ⟨_, rfl⟩)
        · exact hdrop.imp_right Or.inl
  · exact Or.inl rfl

theorem operation_cleanEntry (cl : Cleaner) (e : ShadowEntry) :
    (cleanEntry env cl e).2.operation = e.operation
      ∨ (cleanEntry env cl e).2.operation = .redundant := by
  unfold cleanEntry
  split
  · split
    · split
      · exact Or.inr rfl
      · exact Or.inl rfl
    · exact Or.inl rfl
  · split
    · exact Or.inl rfl
    · exact Or.inr rfl
  · split
    · exact Or.inl rfl
    · exact Or.inr rfl
  · exact Or.inl rfl

/-- It makes none of anything else. -/
theorem block_of_cleaned {e : ShadowEntry} {cl : Cleaner}
    (h : (reassignEntry o ptrs (cleanEntry env cl e).2).operation = .allocAdd
      ∨ (reassignEntry o ptrs (cleanEntry env cl e).2).operation = .allocFree) :
    e.operation = .allocAdd ∨ e.operation = .allocFree := by
  rcases @operation_reassignEntry o ptrs (cleanEntry env cl e).2 with hop | hop | ⟨c, hop⟩
  · rcases @operation_cleanEntry env cl e with hop' | hop'
    · rw [hop, hop'] at h
      exact h
    · rw [hop, hop'] at h
      simp at h
  · rw [hop] at h
    simp at h
  · rw [hop] at h
    simp at h

theorem firstPass_cons (env : Env) (cl : Cleaner) (e : ShadowEntry) (es : List ShadowEntry) :
    firstPass env cl (e :: es)
      = ((firstPass env (cleanEntry env cl e).1 es).1,
          (cleanEntry env cl e).2 :: (firstPass env (cleanEntry env cl e).1 es).2) := rfl

/-- So a batch with other blocks is cleaned into the cleaned batch with
these. -/
theorem firstPass_sameButBlock (raw : List ShadowEntry) :
    ∀ (cl : Cleaner) (entries : List ShadowEntry),
      List.Forall₂ ShadowEntry.SameButBlock
        ((firstPass env cl raw).2.map (reassignEntry o ptrs)) entries →
      ∃ raw', (firstPass env cl raw').1 = (firstPass env cl raw).1
        ∧ (firstPass env cl raw').2.map (reassignEntry o ptrs) = entries := by
  induction raw with
  | nil =>
      intro cl entries h
      cases h
      exact ⟨[], rfl, rfl⟩
  | cons e raw ih =>
      intro cl entries h
      rw [firstPass_cons, List.map_cons] at h
      obtain ⟨e', rest, hhead, htail, rfl⟩ := List.forall₂_cons_left_iff.mp h
      obtain ⟨raw', hcl, hmap⟩ := ih (cleanEntry env cl e).1 rest htail
      rcases hhead with rfl | ⟨hop, ptr, size, rfl⟩
      · refine ⟨e :: raw', ?_, ?_⟩
        · rw [firstPass_cons, firstPass_cons]
          exact hcl
        · rw [firstPass_cons, List.map_cons, hmap]
      · have hblock := block_of_cleaned hop
        obtain ⟨hkeep, hsame⟩ := @clean_block env o ptrs e hblock cl
        obtain ⟨hkeep', hsame'⟩ :=
          @clean_block env o ptrs { e with ptr := ptr, sizeState := size } hblock cl
        rw [hkeep] at hcl hmap
        refine ⟨{ e with ptr := ptr, sizeState := size } :: raw', ?_, ?_⟩
        · rw [firstPass_cons, firstPass_cons, hkeep, hkeep']
          exact hcl
        · rw [firstPass_cons, List.map_cons, hkeep', hsame', hkeep, hsame, hmap]

theorem Cleaned.sameButBlock {entries entries' : List ShadowEntry} (h : Cleaned env entries)
    (hsame : List.Forall₂ ShadowEntry.SameButBlock entries entries') : Cleaned env entries' := by
  obtain ⟨rt, raw, rfl⟩ := h
  obtain ⟨raw', hcl, hmap⟩ := firstPass_sameButBlock raw rt.cleaner entries' hsame
  refine ⟨rt, raw', ?_⟩
  show (firstPass env rt.cleaner raw').2.map
    (reassignEntry env.options (firstPass env rt.cleaner raw').1.ptrs) = entries'
  rw [hcl]
  exact hmap

end Cleaning

-- =========================================================== agreement

section Agreement

variable {env : Env} {numShadows : Nat} {entries entries' : List ShadowEntry}

instance : Decidable (Confined numShadows entries) :=
  decidable_of_iff
    (numShadows ≤ entries.length ∧ ∀ slot < entries.length, ∀ e ∈ entries[slot]?,
      e.operation.outOfOrder = true → slot ∈ subRange numShadows entries.length 0)
    ⟨fun h => ⟨h.1, fun e slot he hop => by
        obtain ⟨hlt, -⟩ := List.getElem?_eq_some_iff.mp he
        exact h.2 slot hlt e he hop⟩,
      fun h => ⟨h.le, fun slot _ e he hop => h.leftmost e slot he hop⟩⟩

theorem Confined.sameButBlock (h : Confined numShadows entries)
    (hsame : List.Forall₂ ShadowEntry.SameButBlock entries entries') :
    Confined numShadows entries' := by
  have hlen := hsame.length_eq
  refine ⟨hlen ▸ h.le, fun e slot he hop => ?_⟩
  obtain ⟨hlt', he'⟩ := List.getElem?_eq_some_iff.mp he
  have hlt : slot < entries.length := hlen ▸ hlt'
  have hentry := (List.forall₂_iff_get.mp hsame).2 slot hlt hlt'
  rw [← hlen]
  refine h.leftmost _ slot (List.getElem?_eq_getElem hlt) ?_
  have hop' := hentry.operation
  rw [List.get_eq_getElem, List.get_eq_getElem, he'] at hop'
  rw [← hop']
  exact hop

theorem Confined.shadowsAgree (h : Confined numShadows entries) (hpos : 0 < numShadows) :
    ShadowsAgree env numShadows entries := by
  refine ⟨(partitions_iff hpos).mpr h.le, fun rt past hglobal => ⟨?_, fun turns sh hrun hdone => ?_⟩⟩
  · obtain ⟨turns, sh, hrun, hdone, -⟩ :=
      Shadows.exists_rightFirst (J := fun _ _ => True) hpos (fun _ _ _ _ => trivial) trivial
    exact ⟨turns, sh, hrun, hdone⟩
  · exact ((onCourse_init env numShadows rt entries past).run h hglobal turns hrun).agrees h hdone

/-- Whatever the batch is: every shadow has an entry, and the commits
and cycle searches are shadow 0's. -/
theorem ShadowsAgree.commits (h : ShadowsAgree env numShadows entries) (hpos : 0 < numShadows) :
    numShadows ≤ entries.length
      ∧ ∀ e slot, entries[slot]? = some e → e.operation.leftmostOnly = true →
        slot ∈ subRange numShadows entries.length 0 := by
  refine ⟨(partitions_iff hpos).mp h.1, fun e slot he hop => ?_⟩
  by_contra hout
  obtain ⟨turns, sh, hrun, hdone, hlost⟩ := @Shadows.exists_lost env numShadows entries
    (fun _ => ShadowEntry.redundant) texasInit hpos slot e hout he hop
  obtain ⟨before, after, hsplit, -⟩ :=
    ((h.2 texasInit _ AllocationTable.BetweenBatches.init).2 turns sh hrun hdone).commits
      e slot he hop
  refine hlost ?_
  rw [hsplit]
  exact List.mem_append_right _ List.mem_cons_self

/-- The batch with 8 bytes allocated in slot `j`, and the frees
elsewhere. -/
def withEightBytes (j : Nat) (entries : List ShadowEntry) : List ShadowEntry :=
  entries.mapIdx fun i e =>
    if i = j then { e with ptr := 0x1000, sizeState := .size 8 }
    else if e.operation = .allocFree then { e with ptr := 0 }
    else e

theorem getElem?_withEightBytes (j i : Nat) (entries : List ShadowEntry) :
    (withEightBytes j entries)[i]? = entries[i]?.map fun e =>
      if i = j then { e with ptr := 0x1000, sizeState := .size 8 }
      else if e.operation = .allocFree then { e with ptr := 0 }
      else e := by
  unfold withEightBytes
  rw [List.getElem?_mapIdx]

theorem sameButBlock_withEightBytes {j : Nat} {e : ShadowEntry} (he : entries[j]? = some e)
    (hop : e.operation = .allocAdd) :
    List.Forall₂ ShadowEntry.SameButBlock entries (withEightBytes j entries) := by
  refine List.forall₂_iff_get.mpr ⟨by simp [withEightBytes], fun i hi hi' => ?_⟩
  have hentry := getElem?_withEightBytes j i entries
  rw [List.getElem?_eq_getElem hi', List.getElem?_eq_getElem hi, Option.map_some] at hentry
  injection hentry with hentry
  rw [List.get_eq_getElem, List.get_eq_getElem, hentry]
  by_cases hij : i = j
  · subst hij
    rw [List.getElem?_eq_getElem hi] at he
    injection he with he
    rw [if_pos rfl, he]
    exact Or.inr ⟨Or.inl hop, _, _, rfl⟩
  · rw [if_neg hij]
    split
    · rename_i hfree
      exact Or.inr ⟨Or.inr hfree, 0, _, rfl⟩
    · exact Or.inl rfl

/-- Such a batch as the shadows meet it, with nothing past its end. -/
theorem eight_withEightBytes {j : Nat} {e : ShadowEntry} (he : entries[j]? = some e)
    (hop : e.operation = .allocAdd) :
    Shadows.Eight 0x1000 j (.init texasInit (withEightBytes j entries)
      (fun _ => ShadowEntry.redundant)) := by
  have hself : (Shadows.init texasInit (withEightBytes j entries)
      (fun _ => ShadowEntry.redundant)).shadowEntries j
        = { e with ptr := 0x1000, sizeState := .size 8 } := by
    show ((withEightBytes j entries)[j]?.getD _) = _
    rw [getElem?_withEightBytes, he]
    simp
  refine ⟨fun i hfree => ?_, by rw [hself]; exact hop, by rw [hself], by rw [hself]; rfl,
    fun tid htid => ?_⟩
  · by_cases hij : i = j
    · subst hij
      rw [hself] at hfree
      exact absurd (hop.symm.trans hfree) Operation.noConfusion
    · change ((withEightBytes j entries)[i]?.getD _).operation = _ at hfree
      show ((withEightBytes j entries)[i]?.getD _).ptr ≠ _
      rw [getElem?_withEightBytes] at hfree ⊢
      cases hi : entries[i]? with
      | none =>
          rw [hi] at hfree
          exact absurd hfree Operation.noConfusion
      | some e' =>
          rw [hi] at hfree
          simp only [Option.map_some, Option.getD_some, if_neg hij] at hfree ⊢
          by_cases hfree' : e'.operation = .allocFree
          · rw [if_pos hfree']
            show (0 : Addr) ≠ 0x1000
            decide
          · rw [if_neg hfree'] at hfree
            exact absurd hfree hfree'
  · rw [Shadows.table_of_ne htid]
    rfl

/-- Another shadow's allocation of 8 bytes is not where the one shadow
puts it. -/
theorem not_shadowsAgree_withEightBytes (hpos : 0 < numShadows)
    (hle : numShadows ≤ entries.length) {j : Nat} {e : ShadowEntry} (he : entries[j]? = some e)
    (hop : e.operation = .allocAdd) (hout : j ∉ subRange numShadows entries.length 0) :
    ¬ ShadowsAgree env numShadows (withEightBytes j entries) := by
  intro h
  have hlen : (withEightBytes j entries).length = entries.length := by simp [withEightBytes]
  obtain ⟨hlt, -⟩ := List.getElem?_eq_some_iff.mp he
  obtain ⟨owner, ⟨howner, hj⟩, -⟩ := ((partitions_iff hpos).mpr hle).1 j hlt
  have hne : owner ≠ 0 := by
    rintro rfl
    exact hout hj
  have height : Shadows.Eight 0x1000 j (.init texasInit (withEightBytes j entries)
      (fun _ => ShadowEntry.redundant)) := eight_withEightBytes he hop
  rw [← hlen] at hj
  obtain ⟨turns, sh, hrun, hdone, hhash⟩ :=
    @Shadows.exists_hashed env numShadows 0x1000 j _ _ _ owner hne howner hj height
  have hruntime := ((h.2 texasInit _ AllocationTable.BetweenBatches.init).2 turns sh hrun
    hdone).runtime
  have hempty : sh.rt.allocationMap.hashAllocationTable = .empty := by
    have hhalf := congrArg (fun r : Runtime => r.allocationMap.hashAllocationTable) hruntime
    exact hhalf.trans (AllocationTable.BetweenBatches.hash_empty_run env _ rfl rfl)
  rw [hempty, SortedMap.find?_empty] at hhash
  cases hhash

/-- The shadows agree with the one shadow, whatever blocks the program
allocates and frees, exactly when every shadow has an entry and the
allocations, commits and cycle searches are all shadow 0's. -/
theorem shadowsAgree_iff_confined (hpos : 0 < numShadows) (hclean : Cleaned env entries) :
    (∀ entries', Cleaned env entries' →
        List.Forall₂ ShadowEntry.SameButBlock entries entries' →
        ShadowsAgree env numShadows entries')
      ↔ Confined numShadows entries := by
  constructor
  · intro h
    have hrefl : List.Forall₂ ShadowEntry.SameButBlock entries entries :=
      List.forall₂_same.mpr fun e _ => Or.inl rfl
    obtain ⟨hle, hcommits⟩ := (h entries hclean hrefl).commits hpos
    refine ⟨hle, fun e slot he hop => ?_⟩
    by_contra hout
    rcases Operation.outOfOrder_iff.mp hop with hadd | hleft
    · have hsame := sameButBlock_withEightBytes he hadd
      exact not_shadowsAgree_withEightBytes hpos hle he hadd hout
        (h _ (hclean.sameButBlock hsame) hsame)
    · exact hout (hcommits e slot he hleft)
  · intro h entries' _ hsame
    exact (h.sameButBlock hsame).shadowsAgree hpos

end Agreement

/-- A block, and one invocation of state 0 that writes it. -/
def writtenOnce : List ShadowEntry :=
  [(SlotWrite.allocAdd 0x1000 16 7 none).entry, (SlotWrite.stateBegin 0).entry,
    (SlotWrite.access .write 0x1000 1).entry, (SlotWrite.stateEnd 0).entry]

/-- With two shadows, the write is deferred to the shadow that has the
block, and nothing else of the second half matters. -/
theorem shadowsAgree_writtenOnce :
    let env := Env.ofTree .flat
    let entries := (cleanBatch env texasInit writtenOnce).2
    Confined 2 entries ∧ Cleaned env entries
      ∧ ∀ entries', Cleaned env entries' →
        List.Forall₂ ShadowEntry.SameButBlock entries entries' → ShadowsAgree env 2 entries' := by
  intro env entries
  have hclean : Cleaned env entries := ⟨texasInit, writtenOnce, rfl⟩
  have hconfined : Confined 2 entries := by decide
  exact ⟨hconfined, hclean, (shadowsAgree_iff_confined (by decide) hclean).mpr hconfined⟩

/-- The loops from left to right, then the merges. -/
def leftToRight : List Shadows.Turn :=
  [.loop 0, .loop 1, .loop 2, .loop 3, .merge 2, .merge 1, .merge 0]

/-- With the default four shadows and the commit at the end of the same
batch: shadow 3 hands it to shadow 2, shadow 1 to shadow 0's queue,
which nobody reads, and the write stays out of the OUTPUT set. -/
theorem not_shadowsAgree_commitLost :
    let env := Env.ofTree .flat
    let rt := (cleanBatch env texasInit (writtenOnce ++ [(SlotWrite.stateCommit 0).entry])).1
    let entries := (cleanBatch env texasInit (writtenOnce ++ [(SlotWrite.stateCommit 0).entry])).2
    (∃ sh, Shadows.run env 4 5 (.init rt entries fun _ => .redundant) leftToRight = some sh
        ∧ sh.phase 0 = .done ∧ sh.performed = [0, 1, 3, 2] ∧ sh.overflowWork 0 = [4]
        ∧ ¬ Final sh.rt 1 0 (.offset .output 0)
        ∧ Final (processEntries env rt entries) 1 0 (.offset .output 0))
      ∧ Cleaned env entries ∧ ¬ ShadowsAgree env 4 entries := by
  intro env rt entries
  refine ⟨⟨_, rfl, rfl, by decide, by decide, by decide, by decide⟩, ⟨texasInit, _, rfl⟩, ?_⟩
  intro h
  have hcommit := (h.commits (by decide)).2 (SlotWrite.stateCommit 0).entry 4 rfl rfl
  exact absurd hcommit (by decide)

end Carmot.Texas
