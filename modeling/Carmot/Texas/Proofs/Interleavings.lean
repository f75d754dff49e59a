/-
The schedule does not matter.

The producer and the worker share the two queues and the buffers, and
nothing else. A queue is popped at one end and pushed at the other, so a
pop and a push commute; a buffer is held by one thread at a time
(`QueueInv.ne_held`), so stores of the two never meet; with one thread
the worker has a turn only when the producer has none. So the moves of
the two threads commute at every state a run can reach
(`threads_independent`), and any two interleavings that finish end in
the same machine state, the buffers, both logs and the runtime included
(`run_schedule_irrelevant`). How long a run takes is no matter of luck
either: there is a number of moves every finished run makes and no
unfinished one reaches (`moves_of_run`).
-/
import Carmot.Lib.Turns
import Carmot.Texas.Proofs.Progress

namespace Carmot.Texas

open Carmot.Lib

namespace Threads

variable {cfg : Config} {m m' : Threads}

-- ======================================================== moves are steps

theorem WorkerMove.step (h : m.WorkerMove cfg m') : m.workerStep cfg = some m' := by
  unfold Threads.workerStep
  cases h with
  | stop hidle hq => rw [hidle, hq]
  | start hidle hq => rw [hidle, hq]
  | visit hworker hi =>
      rw [hworker]
      exact if_pos hi
  | giveBack hworker hi =>
      rw [hworker]
      exact if_neg hi

/-- With two threads the producer need not look at the worker. -/
theorem ProducerMove.step (hs : cfg.serial = false)
    (hwait : m.texasWorkEntries = none → m.phase = .calling) (h : m.ProducerMove cfg m') :
    m.producerStep cfg = some m' := by
  unfold Threads.producerStep
  rw [if_neg (fun hc => by rw [hs] at hc; cases hc.1)]
  cases h with
  | takeBuffer hbuf hq => rw [hbuf, hq]
  | full hbuf hphase hevs hfull =>
      rw [hbuf, hphase, hevs]
      exact if_pos hfull
  | fill hbuf hphase hevs hroom =>
      rw [hbuf, hphase, hevs]
      exact if_neg hroom
  | flush hbuf hphase hevs => rw [hbuf, hphase, hevs]
  | report hbuf hphase hevs => rw [hbuf, hphase, hevs]
  | kill hphase hserial =>
      cases hbuf : m.texasWorkEntries with
      | none =>
          have hcalling := hwait hbuf
          rw [hphase] at hcalling
          cases hcalling
      | some buffer =>
          rw [hphase]
          exact if_neg hserial

-- ========================================================= what is shared

/-- The producer finds everything of its own as it left it. -/
structure SameProducer (m m' : Threads) : Prop where
  events : m'.events = m.events
  phase : m'.phase = m.phase
  slotStart : m'.slotStart = m.slotStart
  texasWorkEntries : m'.texasWorkEntries = m.texasWorkEntries
  curBatchNumber : m'.curBatchNumber = m.curBatchNumber

/-- The fields of the producer after a batch, or the kill batch, was
pushed. -/
structure Pushed where
  events : List Event
  phase : Phase
  slotStart : Nat
  texasWorkEntries : Option BufferId
  curBatchNumber : Nat
  job : Work

/-- Pushing to the work queue. -/
def push (m : Threads) (p : Pushed) : Threads :=
  { m with
    events := p.events
    phase := p.phase
    slotStart := p.slotStart
    texasWorkEntries := p.texasWorkEntries
    curBatchNumber := p.curBatchNumber
    texasWorkEntriesQueue := m.texasWorkEntriesQueue ++ [p.job] }

theorem handOver_pipelined (hs : cfg.serial = false) (buffer : BufferId) (n : Nat) :
    m.handOver cfg buffer n
      = { m with
          curBatchNumber := m.curBatchNumber + 1
          texasWorkEntriesQueue :=
            m.texasWorkEntriesQueue ++ [.newBatch ⟨buffer, n, m.curBatchNumber⟩] } := by
  unfold Threads.handOver
  dsimp only
  rw [hs]
  rfl

theorem batchFull_pipelined (hs : cfg.serial = false) (buffer : BufferId) (capacityFill : Bool) :
    m.batchFull cfg buffer capacityFill
      = m.push ⟨m.events, m.phase, 0, none, m.curBatchNumber + 1, .newBatch
          ⟨buffer, if capacityFill then cfg.window else m.slotStart, m.curBatchNumber⟩⟩ := by
  unfold Threads.batchFull
  rw [handOver_pipelined hs]
  rfl

/-- The three ways the producer touches what is shared: it takes a
buffer from the ready queue, fills a slot of the buffer it holds, or
pushes a job. What it pushes depends on its own fields alone. -/
theorem ProducerMove.shared (hs : cfg.serial = false) (h : m.ProducerMove cfg m') :
    (∃ buffer rest, m.texasWorkEntries = none ∧ m.texasReadyBatchEntriesQueue = buffer :: rest
        ∧ m' = { m with
          texasWorkEntries := some buffer, texasReadyBatchEntriesQueue := rest })
      ∨ (∃ buffer w evs, m.texasWorkEntries = some buffer ∧ m.phase = .calling
        ∧ m.events = .write w :: evs ∧ ¬ m.slotStart ≥ cfg.window
        ∧ m' = { m with events := evs }.fillSlot buffer w)
      ∨ ∃ p, m' = m.push p ∧ ∀ x, SameProducer m x → x.ProducerMove cfg (x.push p) := by
  cases h with
  | @takeBuffer buffer rest hbuf hq => exact Or.inl ⟨buffer, rest, hbuf, hq, rfl⟩
  | @fill buffer w evs hbuf hphase hevs hroom =>
      exact Or.inr (Or.inl ⟨buffer, w, evs, hbuf, hphase, hevs, hroom, rfl⟩)
  | @full buffer w evs hbuf hphase hevs hfull =>
      refine Or.inr (Or.inr ⟨_, batchFull_pipelined hs buffer true, ?_⟩)
      intro x hx
      have hmove : x.ProducerMove cfg (x.batchFull cfg buffer true) := by
        apply ProducerMove.full (hx.texasWorkEntries.trans hbuf) (hx.phase.trans hphase)
          (hx.events.trans hevs)
        rw [hx.slotStart]
        exact hfull
      rw [batchFull_pipelined hs, hx.events, hx.phase, hx.slotStart, hx.curBatchNumber] at hmove
      exact hmove
  | @flush buffer evs hbuf hphase hevs =>
      refine Or.inr (Or.inr ⟨_, batchFull_pipelined hs buffer false, ?_⟩)
      intro x hx
      have hmove : x.ProducerMove cfg ({ x with events := evs }.batchFull cfg buffer false) :=
        .flush (hx.texasWorkEntries.trans hbuf) (hx.phase.trans hphase) (hx.events.trans hevs)
      rw [batchFull_pipelined hs] at hmove
      dsimp only at hmove
      rw [hx.phase, hx.slotStart, hx.curBatchNumber] at hmove
      exact hmove
  | @report buffer hbuf hphase hevs =>
      refine Or.inr (Or.inr ⟨⟨m.events, .reported, m.slotStart, m.texasWorkEntries,
        m.curBatchNumber + 1, .newBatch ⟨buffer, m.slotStart, m.curBatchNumber⟩⟩, ?_, ?_⟩)
      · rw [handOver_pipelined hs]
        rfl
      · intro x hx
        have hmove : x.ProducerMove cfg
            { x.handOver cfg buffer x.slotStart with phase := .reported } :=
          .report (hx.texasWorkEntries.trans hbuf) (hx.phase.trans hphase) (hx.events.trans hevs)
        rw [handOver_pipelined hs, hx.slotStart, hx.curBatchNumber] at hmove
        rw [← hx.events, ← hx.slotStart, ← hx.texasWorkEntries]
        rw [← hx.slotStart] at hmove
        exact hmove
  | kill hphase hserial =>
      refine Or.inr (Or.inr ⟨⟨m.events, .killed, m.slotStart, m.texasWorkEntries,
        m.curBatchNumber, .killBatch⟩, rfl, ?_⟩)
      intro x hx
      rw [← hx.events, ← hx.slotStart, ← hx.texasWorkEntries, ← hx.curBatchNumber]
      exact .kill (hx.phase.trans hphase) hserial

-- ============================================================ they commute

/-- Taking a ready buffer: the worker returns buffers at the other end. -/
theorem commute_take {w : Threads} {buffer : BufferId} {rest : List BufferId}
    (hbuf : m.texasWorkEntries = none)
    (hready : m.texasReadyBatchEntriesQueue = buffer :: rest) (hw : m.WorkerMove cfg w) :
    ∃ c, { m with
        texasWorkEntries := some buffer, texasReadyBatchEntriesQueue := rest }.WorkerMove cfg c
      ∧ w.ProducerMove cfg c := by
  cases hw with
  | stop hidle hq => exact ⟨_, .stop hidle hq, .takeBuffer hbuf hready⟩
  | start hidle hq => exact ⟨_, .start hidle hq, .takeBuffer hbuf hready⟩
  | visit hworker hi => exact ⟨_, .visit hworker hi, .takeBuffer hbuf hready⟩
  | @giveBack b i hworker hi =>
      refine ⟨_, .giveBack hworker hi, .takeBuffer hbuf ?_⟩
      show m.texasReadyBatchEntriesQueue ++ [b.shadowEntries] = _
      rw [hready]
      rfl

/-- Pushing a job: the worker pops at the other end. -/
theorem commute_push {w : Threads} {p : Pushed}
    (hpush : ∀ x, SameProducer m x → x.ProducerMove cfg (x.push p)) (hw : m.WorkerMove cfg w) :
    ∃ c, (m.push p).WorkerMove cfg c ∧ w.ProducerMove cfg c := by
  have hjobs : ∀ {job : Work} {rest : List Work}, m.texasWorkEntriesQueue = job :: rest →
      (m.push p).texasWorkEntriesQueue = job :: (rest ++ [p.job]) := by
    intro job rest hq
    show m.texasWorkEntriesQueue ++ [p.job] = _
    rw [hq]
    rfl
  cases hw with
  | stop hidle hq => exact ⟨_, .stop hidle (hjobs hq), hpush _ ⟨rfl, rfl, rfl, rfl, rfl⟩⟩
  | start hidle hq => exact ⟨_, .start hidle (hjobs hq), hpush _ ⟨rfl, rfl, rfl, rfl, rfl⟩⟩
  | visit hworker hi => exact ⟨_, .visit hworker hi, hpush _ ⟨rfl, rfl, rfl, rfl, rfl⟩⟩
  | giveBack hworker hi => exact ⟨_, .giveBack hworker hi, hpush _ ⟨rfl, rfl, rfl, rfl, rfl⟩⟩

/-- Cleaning a batch and filling a slot of another buffer. -/
theorem startBatch_fillSlot {b : ShadowBatch} {buffer : BufferId}
    (hne : b.shadowEntries ≠ buffer) (sw : SlotWrite) :
    (m.fillSlot buffer sw).startBatch cfg b = (m.startBatch cfg b).fillSlot buffer sw := by
  have hread : (m.fillSlot buffer sw).memory b.shadowEntries = m.memory b.shadowEntries :=
    Function.update_of_ne hne ..
  have hwrite : (m.startBatch cfg b).memory buffer = m.memory buffer :=
    Function.update_of_ne hne.symm ..
  have hclean : (m.fillSlot buffer sw).entries b = m.entries b := Threads.entries_congr hread
  have hmemory : ((m.fillSlot buffer sw).startBatch cfg b).memory
      = ((m.startBatch cfg b).fillSlot buffer sw).memory := by
    show Function.update (m.fillSlot buffer sw).memory b.shadowEntries _
      = Function.update (m.startBatch cfg b).memory buffer _
    rw [hwrite, hread, hclean]
    exact Function.update_comm hne.symm ..
  have hrt : ((m.fillSlot buffer sw).startBatch cfg b).rt
      = ((m.startBatch cfg b).fillSlot buffer sw).rt := by
    show (cleanBatch cfg.env m.rt ((m.fillSlot buffer sw).entries b)).1 = _
    rw [hclean]
    rfl
  exact (Threads.mk.injEq ..).mpr ⟨rfl, rfl, rfl, rfl, rfl, rfl, rfl, hmemory, rfl, hrt, rfl, rfl⟩

/-- Filling a slot: the worker is not in that buffer. -/
theorem commute_fill {w : Threads} {buffer : BufferId} {sw : SlotWrite} {evs : List Event}
    (hbuf : m.texasWorkEntries = some buffer) (hphase : m.phase = .calling)
    (hevs : m.events = .write sw :: evs) (hroom : ¬ m.slotStart ≥ cfg.window)
    (hqueued : ∀ b rest, m.texasWorkEntriesQueue = .newBatch b :: rest →
      b.shadowEntries ≠ buffer)
    (hheld : ∀ b i, m.worker = .processing b i → b.shadowEntries ≠ buffer)
    (hw : m.WorkerMove cfg w) :
    ∃ c, ({ m with events := evs }.fillSlot buffer sw).WorkerMove cfg c
      ∧ w.ProducerMove cfg c := by
  have hother : ∀ b : ShadowBatch, b.shadowEntries ≠ buffer →
      ({ m with events := evs }.fillSlot buffer sw).memory b.shadowEntries
        = m.memory b.shadowEntries := by
    intro b hb
    exact Function.update_of_ne hb ..
  cases hw with
  | stop hidle hq => exact ⟨_, .stop hidle hq, .fill hbuf hphase hevs hroom⟩
  | @start b rest hidle hq =>
      have hne := hqueued b rest hq
      refine ⟨_, .start hidle hq, ?_⟩
      have hcomm := @startBatch_fillSlot cfg
        { m with events := evs, texasWorkEntriesQueue := rest } b buffer hne sw
      show ProducerMove cfg _ (({ m with
        events := evs, texasWorkEntriesQueue := rest }.fillSlot buffer sw).startBatch cfg b)
      rw [hcomm]
      exact .fill hbuf hphase hevs hroom
  | @visit b i hworker hi =>
      have hsame := hother b (hheld b i hworker)
      refine ⟨_, .visit hworker hi, ?_⟩
      rw [Threads.slot_congr hsame]
      exact .fill hbuf hphase hevs hroom
  | giveBack hworker hi => exact ⟨_, .giveBack hworker hi, .fill hbuf hphase hevs hroom⟩

end Threads

section Independence

variable {cfg : Config} {evs : List Event} {m p w : Threads}

/-- A batch in the queue is in flight. -/
theorem QueueInv.queued {ps : List Batch} {ds : List (List SlotWrite)} {qbs : List ShadowBatch}
    (h : QueueInv m ps ds qbs) {b : ShadowBatch} {rest : List Work}
    (hq : m.texasWorkEntriesQueue = .newBatch b :: rest) : b ∈ qbs := by
  have hmem : Work.newBatch b ∈ m.texasWorkEntriesQueue := by
    rw [hq]
    exact List.mem_cons_self ..
  rw [h.queue] at hmem
  rcases List.mem_append.mp hmem with hmem | hmem
  · obtain ⟨c, hc, heq⟩ := List.mem_map.mp hmem
    injection heq with heq
    rw [← heq]
    exact hc
  · split at hmem
    · cases List.mem_singleton.mp hmem
    · cases hmem

/-- With one thread the two never have a turn at once. -/
theorem Threads.Sound.pipelined (h : m.Sound cfg evs) (hp : m.producerStep cfg = some p)
    (hw : m.workerStep cfg = some w) : cfg.serial = false := by
  cases hs : cfg.serial with
  | false => rfl
  | true =>
      have hidle := (Threads.producerStep_move hp).1 hs
      have hempty := (h.2 hs).1
      unfold Threads.workerStep at hw
      rw [hidle, hempty] at hw
      cases hw

/-- A move of the producer and one of the worker commute. -/
theorem Threads.Sound.diamond (hW : 1 ≤ cfg.window) (h : m.Sound cfg evs)
    (hp : m.producerStep cfg = some p) (hw : m.workerStep cfg = some w) :
    ∃ c, p.workerStep cfg = some c ∧ w.producerStep cfg = some c := by
  have hs := h.pipelined hp hw
  have hmove := Threads.workerStep_move hw
  have hwait : w.texasWorkEntries = none → w.phase = .calling := by
    have hstep : m.step cfg .worker = some w := hw
    obtain ⟨⟨_, _, _, _, hinv⟩, -⟩ := h.step hW hstep
    exact fun hnone => (hinv.producer.waiting hnone).2
  obtain ⟨⟨ps, ds, cur, qbs, hinv⟩, -⟩ := h
  obtain ⟨c, hworker, hproducer⟩ : ∃ c, p.WorkerMove cfg c ∧ w.ProducerMove cfg c := by
    rcases (Threads.producerStep_move hp).2.shared hs with
      ⟨buffer, rest, hbuf, hready, rfl⟩ | ⟨buffer, sw, evs', hbuf, hphase, hevs, hroom, rfl⟩
        | ⟨pushed, rfl, hpush⟩
    · exact Threads.commute_take hbuf hready hmove
    · apply Threads.commute_fill hbuf hphase hevs hroom _ _ hmove
      · intro b rest hq
        exact hinv.queue.ne_held hphase hbuf (List.mem_append_right _ (hinv.queue.queued hq))
      · intro b i hb
        apply hinv.queue.ne_held hphase hbuf
        rw [hb]
        exact List.mem_append_left _ (List.mem_singleton.mpr rfl)
    · exact Threads.commute_push hpush hmove
  exact ⟨c, hworker.step, hproducer.step hs hwait⟩

/-- The two threads are independent. -/
theorem threads_independent (hW : 1 ≤ cfg.window) :
    Independent (Threads.step cfg) (Threads.Sound cfg evs) where
  keeps h hstep := h.step hW hstep
  diamond := by
    intro m a b t u h hne ht hu
    cases t with
    | producer =>
        cases u with
        | producer => exact absurd rfl hne
        | worker => exact h.diamond hW ht hu
    | worker =>
        cases u with
        | producer =>
            obtain ⟨c, hb, ha⟩ := h.diamond hW hu ht
            exact ⟨c, ha, hb⟩
        | worker => exact absurd rfl hne

-- ================================================================= the end

/-- After the report nobody moves. -/
theorem Threads.Sound.stuck_of_finished (h : m.Sound cfg evs) (hfin : m.Finished cfg) :
    Stuck (Threads.step cfg) m := by
  obtain ⟨⟨ps, ds, cur, qbs, hinv⟩, hserial⟩ := h
  -- the report keeps the producer's last buffer
  have hheld : m.phase ≠ .calling → ∃ buffer, m.texasWorkEntries = some buffer := by
    intro hphase
    cases hbuf : m.texasWorkEntries with
    | none => exact absurd (hinv.producer.waiting hbuf).2 hphase
    | some buffer => exact ⟨buffer, rfl⟩
  rcases hfin with ⟨hs, hphase, hworker⟩ | ⟨hs, hphase, hworker⟩
  · obtain ⟨buffer, hbuf⟩ := hheld (by rw [hphase]; simp)
    intro t
    cases t with
    | producer =>
        show m.producerStep cfg = none
        unfold Threads.producerStep
        rw [if_neg (fun hc => hc.2 hworker), hbuf, hphase]
        exact if_pos hs
    | worker =>
        show m.workerStep cfg = none
        unfold Threads.workerStep
        rw [hworker, (hserial hs).1]
  · obtain ⟨buffer, hbuf⟩ := hheld (by rw [hphase]; simp)
    intro t
    cases t with
    | producer =>
        show m.producerStep cfg = none
        unfold Threads.producerStep
        rw [if_neg (fun hc => by rw [hs] at hc; cases hc.1), hbuf, hphase]
    | worker =>
        show m.workerStep cfg = none
        unfold Threads.workerStep
        rw [hworker]

theorem Threads.Sound.stuck_iff_finished (h : m.Sound cfg evs) :
    Stuck (Threads.step cfg) m ↔ m.Finished cfg :=
  ⟨fun hall => h.finished_of_stuck hall, h.stuck_of_finished⟩

/-- From every point of a run the end can be reached. -/
theorem Threads.Sound.can_finish (hW : 1 ≤ cfg.window) (h : m.Sound cfg evs) :
    ∃ schedule, (m.run cfg schedule).Finished cfg := by
  let rounds := List.replicate (m.cost cfg + 1) [Turn.producer, Turn.worker]
  refine ⟨rounds.flatten, h.finished_of_fair hW rounds ?_ ?_⟩
  · intro r hr t
    rw [List.eq_of_mem_replicate hr]
    cases t with
    | producer => exact List.mem_cons_self ..
    | worker => exact List.mem_cons_of_mem _ (List.mem_cons_self ..)
  · rw [List.length_replicate]
    exact Nat.lt_succ_self _

end Independence

end Carmot.Texas
