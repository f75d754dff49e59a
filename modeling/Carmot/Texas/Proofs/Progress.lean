/-
Every fair interleaving finishes.

Some thread can always move until the report is done
(`Threads.Sound.progress`): when the worker has nothing to do, all the
buffers are the producer's or ready, so the producer does not wait. And
every move takes from `Threads.cost`, which counts the turns still
needed: per event a slot, a batch handed over and a buffer taken, per
batch its slots and the handling around them. So a schedule in which
both threads keep getting turns reaches the end (`finished_of_fair`).

The program is taken to answer a `DETECT_CYCLE` entry, on whose
variable the worker spins.
-/
import Carmot.Texas.Proofs.Threads

namespace Carmot.Texas

-- ============================================================== progress

/-- No deadlock: short of the end some thread can move. -/
theorem Threads.Sound.progress {cfg : Config} {evs : List Event} {m : Threads}
    (h : m.Sound cfg evs) (hnot : ¬ m.Finished cfg) :
    ∃ t, (m.step cfg t).isSome = true := by
  obtain ⟨⟨ps, ds, cur, qbs, hinv⟩, hserial⟩ := h
  cases hworker : m.worker with
  | processing b i =>
      refine ⟨.worker, ?_⟩
      unfold Threads.step Threads.workerStep
      rw [hworker]
      dsimp only
      split
      · rfl
      · rfl
  | stopped =>
      -- the worker stops after the kill batch, which only two threads have
      have hphase := (hinv.queue.stopped hworker).2
      cases hs : cfg.serial with
      | true => exact absurd hphase (hserial hs).2
      | false => exact absurd (Or.inr ⟨hs, hphase, hworker⟩) hnot
  | idle =>
      cases hqueue : m.texasWorkEntriesQueue with
      | cons w rest =>
          refine ⟨.worker, ?_⟩
          unfold Threads.step Threads.workerStep
          rw [hworker, hqueue]
          cases w with
          | newBatch b => rfl
          | killBatch => rfl
      | nil =>
          refine ⟨.producer, ?_⟩
          have hlist := hinv.queue.queue
          rw [hqueue] at hlist
          have hempty := List.append_eq_nil_iff.mp hlist.symm
          have hqbs : qbs = [] := List.map_eq_nil_iff.mp hempty.1
          unfold Threads.step Threads.producerStep
          dsimp only
          rw [if_neg (fun hs => hs.2 hworker)]
          cases hbuf : m.texasWorkEntries with
          | none =>
              -- nothing is in flight, so all the buffers are ready
              have howned := hinv.queue.owned.length_eq
              have hheld : m.held = [] := by
                unfold Threads.held
                rw [hbuf]
                split
                · rfl
                · rfl
              rw [hheld, hworker, hqbs] at howned
              cases hready : m.texasReadyBatchEntriesQueue with
              | nil => rw [hready] at howned; cases howned
              | cons buffer rest => rfl
          | some buffer =>
              dsimp only
              cases hphase : m.phase with
              | calling =>
                  cases m.events with
                  | nil => rfl
                  | cons ev evs' =>
                      cases ev with
                      | flush => rfl
                      | write w =>
                          dsimp only
                          split
                          · rfl
                          · rfl
              | reported =>
                  dsimp only
                  cases hs : cfg.serial with
                  | true => exact absurd (Or.inl ⟨hs, hphase, hworker⟩) hnot
                  | false => rfl
              | killed =>
                  -- the kill batch would be in the queue
                  have hkill := hempty.2
                  rw [if_pos ⟨hphase, by rw [hworker]; rfl⟩] at hkill
                  cases hkill

-- ================================================================== cost

/-- The turns a batch in the queue still needs. -/
def Work.cost : Work → Nat
  | .newBatch b => b.numEntries + 3
  | .killBatch => 1

/-- The turns the whole queue needs. -/
def queueCost : List Work → Nat
  | [] => 0
  | w :: ws => w.cost + queueCost ws

theorem queueCost_concat (ws : List Work) (w : Work) :
    queueCost (ws ++ [w]) = queueCost ws + w.cost := by
  induction ws with
  | nil =>
      show w.cost + 0 = 0 + w.cost
      omega
  | cons v ws ih =>
      rw [List.cons_append, queueCost, queueCost, ih]
      omega

/-- The turns the worker needs for the batch at hand. -/
def Worker.cost : Worker → Nat
  | .processing b i => b.numEntries + 2 - i
  | _ => 0

/-- The turns the report needs. -/
def Phase.cost (window : Nat) : Phase → Nat
  | .calling => window + 6
  | .reported => 2
  | .killed => 0

/-- The turns a buffer that is full already needs. -/
def fullCost (window slotStart : Nat) : Phase → Nat
  | .calling => if window ≤ slotStart then window + 6 else 0
  | _ => 0

/-- A bound on the turns the producer still needs, and on those its
batches will cost the worker: per event, for a full buffer, for a
missing one and for the report. -/
def producerCost (window events slotStart : Nat) (phase : Phase) (waiting : Bool) : Nat :=
  events * (window + 8) + fullCost window slotStart phase + waiting.toNat + phase.cost window

theorem fullCost_le (window slotStart : Nat) (phase : Phase) :
    fullCost window slotStart phase ≤ window + 6 := by
  cases phase with
  | calling =>
      show (if window ≤ slotStart then window + 6 else 0) ≤ window + 6
      split
      · exact Nat.le_refl _
      · exact Nat.zero_le _
  | reported => exact Nat.zero_le _
  | killed => exact Nat.zero_le _

theorem fullCost_empty {window : Nat} (hW : 1 ≤ window) (phase : Phase) :
    fullCost window 0 phase = 0 := by
  cases phase with
  | calling => exact if_neg (by omega)
  | reported => rfl
  | killed => rfl

/-- A bound on the turns for what is in flight. -/
def Threads.workerCost (m : Threads) : Nat :=
  queueCost m.texasWorkEntriesQueue + m.worker.cost

/-- A bound on the moves of a run from here on. -/
def Threads.cost (cfg : Config) (m : Threads) : Nat :=
  producerCost cfg.window m.events.length m.slotStart m.phase m.texasWorkEntries.isNone
    + m.workerCost

section Cost

variable {cfg : Config} {m m' : Threads}

/-- A batch handed over costs the worker its slots and three turns. -/
theorem Threads.workerCost_handOver (hserial : cfg.serial = true → m.worker = .idle)
    (buffer : BufferId) (n : Nat) :
    (m.handOver cfg buffer n).workerCost ≤ m.workerCost + (n + 3) := by
  unfold Threads.handOver Threads.workerCost
  cases hs : cfg.serial with
  | true =>
      rw [hserial hs]
      show queueCost m.texasWorkEntriesQueue + (n + 2 - 0)
        ≤ queueCost m.texasWorkEntriesQueue + 0 + (n + 3)
      omega
  | false =>
      show queueCost (m.texasWorkEntriesQueue ++ [Work.newBatch _]) + m.worker.cost ≤ _
      rw [queueCost_concat]
      show _ + (n + 3) + m.worker.cost ≤ _
      omega

/-- Every move of the producer takes from the cost. -/
theorem Threads.cost_producerStep (hW : 1 ≤ cfg.window)
    (hfits : m.phase = .calling → m.slotStart ≤ cfg.window)
    (hstep : m.producerStep cfg = some m') : m'.cost cfg < m.cost cfg := by
  obtain ⟨hidle, hmove⟩ := Threads.producerStep_move hstep
  cases hmove with
  | takeBuffer hbuf _ =>
      show producerCost cfg.window m.events.length m.slotStart m.phase false + m.workerCost < _
      unfold Threads.cost producerCost
      rw [hbuf, Option.isNone_none, Bool.toNat_true, Bool.toNat_false]
      omega
  | @full buffer w evs' hbuf hphase hevs hfull =>
      have hwork := Threads.workerCost_handOver hidle buffer cfg.window
      rw [Threads.batchFull_eq m m.events]
      show producerCost cfg.window m.events.length 0 m.phase true
        + (m.handOver cfg buffer cfg.window).workerCost < _
      have hcost : fullCost cfg.window m.slotStart m.phase = cfg.window + 6 := by
        rw [hphase]
        exact if_pos hfull
      unfold Threads.cost producerCost
      rw [fullCost_empty hW, hcost, Bool.toNat_true]
      omega
  | @fill buffer w evs' hbuf hphase hevs hroom =>
      show producerCost cfg.window evs'.length (m.slotStart + 1) m.phase
        m.texasWorkEntries.isNone + m.workerCost < _
      have hle := fullCost_le cfg.window (m.slotStart + 1) m.phase
      unfold Threads.cost producerCost
      rw [hevs, List.length_cons, Nat.succ_mul]
      omega
  | @flush buffer evs' hbuf hphase hevs =>
      have hle := hfits hphase
      have hwork := Threads.workerCost_handOver hidle buffer m.slotStart
      rw [Threads.batchFull_eq]
      show producerCost cfg.window evs'.length 0 m.phase true
        + (m.handOver cfg buffer m.slotStart).workerCost < _
      unfold Threads.cost producerCost
      rw [hevs, List.length_cons, Nat.succ_mul, fullCost_empty hW, Bool.toNat_true]
      omega
  | @report buffer hbuf hphase hevs =>
      have hle := hfits hphase
      have hwork := Threads.workerCost_handOver hidle buffer m.slotStart
      rw [Threads.report_eq]
      show producerCost cfg.window m.events.length m.slotStart .reported
        m.texasWorkEntries.isNone + (m.handOver cfg buffer m.slotStart).workerCost < _
      unfold Threads.cost producerCost
      rw [hphase]
      show _ + 0 + _ + 2 + _ < _ + _ + _ + (cfg.window + 6) + _
      omega
  | kill hphase _ =>
      show producerCost cfg.window m.events.length m.slotStart .killed
          m.texasWorkEntries.isNone
        + (queueCost (m.texasWorkEntriesQueue ++ [Work.killBatch]) + m.worker.cost) < _
      unfold Threads.cost Threads.workerCost producerCost
      rw [queueCost_concat, hphase]
      show _ + 0 + _ + 0 + (_ + 1 + _) < _ + 0 + _ + 2 + _
      omega

/-- Every move of the worker takes from the cost. -/
theorem Threads.cost_workerStep
    (hbound : ∀ b i, m.worker = .processing b i → i ≤ b.numEntries + 1)
    (hstep : m.workerStep cfg = some m') : m'.cost cfg < m.cost cfg := by
  have hcost : m'.events = m.events → m'.slotStart = m.slotStart → m'.phase = m.phase →
      m'.texasWorkEntries = m.texasWorkEntries → m'.workerCost < m.workerCost →
      m'.cost cfg < m.cost cfg := by
    intro h₁ h₂ h₃ h₄ hlt
    unfold Threads.cost
    rw [h₁, h₂, h₃, h₄]
    omega
  cases Threads.workerStep_move hstep with
  | @stop rest hidle hq =>
      apply hcost rfl rfl rfl rfl
      unfold Threads.workerCost
      rw [hq, hidle]
      show queueCost rest + 0 < 1 + queueCost rest + 0
      omega
  | @start b rest hidle hq =>
      apply hcost rfl rfl rfl rfl
      unfold Threads.workerCost
      rw [hq, hidle]
      show queueCost rest + (b.numEntries + 2 - 0) < b.numEntries + 3 + queueCost rest + 0
      omega
  | @visit b i hworker hle =>
      have hi := hbound b i hworker
      apply hcost rfl rfl rfl rfl
      unfold Threads.workerCost
      rw [hworker]
      show queueCost m.texasWorkEntriesQueue + (b.numEntries + 2 - (i + 1))
        < _ + (b.numEntries + 2 - i)
      omega
  | @giveBack b i hworker hgt =>
      have hi := hbound b i hworker
      apply hcost rfl rfl rfl rfl
      unfold Threads.workerCost
      rw [hworker]
      show queueCost m.texasWorkEntriesQueue + 0 < _ + (b.numEntries + 2 - i)
      omega

/-- Every move takes from the cost. -/
theorem Threads.Sound.cost_step {evs : List Event} (hW : 1 ≤ cfg.window) (h : m.Sound cfg evs)
    {t : Turn} (hstep : m.step cfg t = some m') : m'.cost cfg < m.cost cfg := by
  obtain ⟨⟨ps, ds, cur, qbs, hinv⟩, -⟩ := h
  cases t with
  | producer =>
      refine Threads.cost_producerStep hW ?_ hstep
      intro hphase
      rw [hinv.producer.slotStart hphase]
      exact hinv.producer.fits cur (List.mem_append_right _ (List.mem_singleton.mpr rfl))
  | worker =>
      refine Threads.cost_workerStep ?_ hstep
      intro b i hb
      obtain ⟨ws, es, -, -, hi, -⟩ := hinv.worker.processing b i hb
      exact hi

end Cost

-- ============================================================== fairness

section Fairness

variable {cfg : Config} {evs : List Event}

/-- A stretch of turns takes from the cost, unless no turn in it was a
move. -/
theorem Threads.Sound.cost_run (hW : 1 ≤ cfg.window) (schedule : List Turn) :
    ∀ {m : Threads}, m.Sound cfg evs →
      (m.run cfg schedule).cost cfg < m.cost cfg
        ∨ (m.run cfg schedule = m ∧ ∀ t ∈ schedule, m.step cfg t = none) := by
  induction schedule with
  | nil => intro m _; exact Or.inr ⟨rfl, fun t ht => absurd ht List.not_mem_nil⟩
  | cons t schedule ih =>
      intro m h
      show ((m.turn cfg t).run cfg schedule).cost cfg < m.cost cfg
        ∨ ((m.turn cfg t).run cfg schedule = m ∧ _)
      have hrest := ih (h.turn hW t)
      unfold Threads.turn at hrest ⊢
      cases hstep : m.step cfg t with
      | none =>
          rw [hstep] at hrest
          rcases hrest with hlt | ⟨hrun, hall⟩
          · exact Or.inl hlt
          · exact Or.inr ⟨hrun, List.forall_mem_cons.mpr ⟨hstep, hall⟩⟩
      | some m' =>
          rw [hstep] at hrest
          have hlt := h.cost_step hW hstep
          left
          rcases hrest with hlt' | ⟨hrun, -⟩
          · exact Nat.lt_trans hlt' hlt
          · exact Nat.lt_of_le_of_lt (Nat.le_of_eq (congrArg (Threads.cost cfg) hrun)) hlt

theorem Threads.run_of_stuck {m : Threads} (hall : ∀ t, m.step cfg t = none)
    (schedule : List Turn) : m.run cfg schedule = m := by
  induction schedule with
  | nil => rfl
  | cons t schedule ih =>
      have hturn : m.turn cfg t = m := by
        unfold Threads.turn
        rw [hall]
        rfl
      show (m.turn cfg t).run cfg schedule = m
      rw [hturn]
      exact ih

theorem Threads.Sound.finished_of_stuck {m : Threads} (h : m.Sound cfg evs)
    (hall : ∀ t, m.step cfg t = none) : m.Finished cfg := by
  by_contra hnot
  obtain ⟨t, ht⟩ := h.progress hnot
  rw [hall t] at ht
  cases ht

/-- Enough stretches in which both threads have a turn reach the end. -/
theorem Threads.Sound.finished_of_fair (hW : 1 ≤ cfg.window) (rounds : List (List Turn))
    (hfair : ∀ r ∈ rounds, ∀ t : Turn, t ∈ r) :
    ∀ {m : Threads}, m.Sound cfg evs → m.cost cfg < rounds.length →
      (m.run cfg rounds.flatten).Finished cfg := by
  induction rounds with
  | nil => intro m _ hlt; exact absurd hlt (Nat.not_lt_zero _)
  | cons r rounds ih =>
      intro m h hlt
      have hrest : ∀ r' ∈ rounds, ∀ t : Turn, t ∈ r' :=
        fun r' hr' => hfair r' (List.mem_cons_of_mem _ hr')
      have hsplit : m.run cfg (r :: rounds).flatten
          = (m.run cfg r).run cfg rounds.flatten := by
        rw [List.flatten_cons]
        exact List.foldl_append
      rw [hsplit]
      rw [List.length_cons] at hlt
      rcases h.cost_run hW r with hless | ⟨-, hall⟩
      · exact ih hrest (h.run hW r) (by omega)
      · -- nobody could move, so nobody ever will
        have hstuck : ∀ t, m.step cfg t = none :=
          fun t => hall t (hfair r (List.mem_cons_self ..) t)
        rw [Threads.run_of_stuck hstuck, Threads.run_of_stuck hstuck]
        exact h.finished_of_stuck hstuck

end Fairness

/-- From any point of any run, every fair continuation finishes. -/
theorem run_finishes (cfg : Config) (hW : 1 ≤ cfg.window)
    (memory : BufferId → Nat → ShadowEntry) (evs : List Event) (schedule : List Turn) :
    ∃ n, ∀ rounds : List (List Turn), n ≤ rounds.length → (∀ r ∈ rounds, ∀ t : Turn, t ∈ r) →
      ((Threads.init memory evs).run cfg (schedule ++ rounds.flatten)).Finished cfg := by
  have hsound := (Threads.sound_init cfg memory evs).run hW schedule
  refine ⟨((Threads.init memory evs).run cfg schedule).cost cfg + 1, ?_⟩
  intro rounds hlen hfair
  have hsplit : (Threads.init memory evs).run cfg (schedule ++ rounds.flatten)
      = ((Threads.init memory evs).run cfg schedule).run cfg rounds.flatten := List.foldl_append
  rw [hsplit]
  exact hsound.finished_of_fair hW rounds hfair hlen

end Carmot.Texas
