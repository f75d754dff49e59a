/-
The buffers go round.

`texas_init` allocates `NUM_BATCHES` buffers and nothing else says who
may write to which. What keeps the two threads apart is that both queues
are first in, first out: the buffers in flight, the one being filled and
the ones that are ready stand one behind the other in the order of
`texas_init`, and a returned buffer goes to the end of the line
(`Ring`). So the batch of number `k` is always in buffer
`k % NUM_BATCHES` (`ring_run`), at most `NUM_BATCHES` batches are in
flight, and a store of the program goes to no buffer that is in flight
while the worker stores to the buffer of the oldest batch only
(`stores_apart`).
-/
import Carmot.Texas.Proofs.Threads

namespace Carmot.Texas

-- ============================================================== in flight

/-- The batch a job carries. -/
def Work.batches : Work → List ShadowBatch
  | .newBatch b => [b]
  | .killBatch => []

namespace Threads

/-- The batches handed over whose buffer is not back, oldest first. -/
def inFlight (m : Threads) : List ShadowBatch :=
  m.worker.batches ++ m.texasWorkEntriesQueue.flatMap Work.batches

/-- All the buffers, in line: in flight, being filled, ready. -/
def line (m : Threads) : List BufferId :=
  m.inFlight.map ShadowBatch.shadowEntries ++ m.held ++ m.texasReadyBatchEntriesQueue

/-- The line stands in the order of `texas_init`, from some buffer on,
and the batches in flight are the last ones handed over. -/
structure Ring (m : Threads) (finished : Nat) : Prop where
  line : m.line = (List.range' finished numBatches).map (· % numBatches)
  numbers : m.inFlight.map ShadowBatch.batchNumber = List.range' finished m.inFlight.length
  current : m.curBatchNumber = finished + m.inFlight.length

/-- One turn of the line. -/
theorem line_turn (k : Nat) :
    (List.range' (k + 1) numBatches).map (· % numBatches)
      = (List.range' (k + 1) 3).map (· % numBatches) ++ [k % numBatches] := by
  have hround : (k + 1 + 3) % numBatches = k % numBatches := Nat.add_mod_right k 4
  have hlast : List.range' (k + 1) numBatches = List.range' (k + 1) 3 ++ [k + 1 + 3] :=
    List.range'_1_concat
  rw [hlast, List.map_append, List.map_singleton, hround]

theorem ring_init (memory : BufferId → Nat → ShadowEntry) (evs : List Event) :
    (Threads.init memory evs).Ring 0 :=
  ⟨rfl, rfl, rfl⟩

section Steps

variable {cfg : Config} {m m' : Threads} {k : Nat}

/-- Batches and buffers that stay where they are. -/
theorem Ring.congr (h : m.Ring k) (hflight : m'.inFlight = m.inFlight) (hline : m'.line = m.line)
    (hcurrent : m'.curBatchNumber = m.curBatchNumber) : m'.Ring k := by
  refine ⟨hline.trans h.line, ?_, ?_⟩
  · rw [hflight]
    exact h.numbers
  · rw [hcurrent, hflight]
    exact h.current

/-- The buffer being filled goes in flight: it is the next in line. -/
theorem Ring.handOver (h : m.Ring k) {buffer : BufferId} (hheld : m.held = [buffer]) {n : Nat}
    (hflight : m'.inFlight = m.inFlight ++ [⟨buffer, n, m.curBatchNumber⟩])
    (hheld' : m'.held = []) (hready : m'.texasReadyBatchEntriesQueue
      = m.texasReadyBatchEntriesQueue) (hcurrent : m'.curBatchNumber = m.curBatchNumber + 1) :
    m'.Ring k := by
  refine ⟨?_, ?_, ?_⟩
  · rw [← h.line]
    unfold Threads.line
    rw [hflight, hheld, hheld', hready, List.map_append, List.append_nil]
    rfl
  · rw [hflight, List.map_append, h.numbers, List.length_append, List.length_singleton,
      List.range'_1_concat, h.current]
    rfl
  · rw [hcurrent, hflight, List.length_append, h.current]
    rfl

/-- The oldest batch's buffer comes back, to the end of the line. -/
theorem Ring.giveBack (h : m.Ring k) {b : ShadowBatch}
    (hflight : m.inFlight = b :: m'.inFlight) (hheld : m'.held = m.held)
    (hready : m'.texasReadyBatchEntriesQueue
      = m.texasReadyBatchEntriesQueue ++ [b.shadowEntries])
    (hcurrent : m'.curBatchNumber = m.curBatchNumber) : m'.Ring (k + 1) := by
  have hline := h.line
  have hnumbers := h.numbers
  have hlast := h.current
  unfold Threads.line at hline
  rw [hflight] at hline hnumbers hlast
  rw [List.map_cons, List.length_cons, List.range'_succ] at hnumbers
  obtain ⟨-, hrest⟩ := List.cons.inj hnumbers
  -- the front of the line is buffer `k % numBatches`
  rw [List.map_cons, List.cons_append, List.cons_append] at hline
  obtain ⟨hfront, hback⟩ := List.cons.inj (hline.trans
    (show _ = k % numBatches :: (List.range' (k + 1) 3).map (· % numBatches) from rfl))
  refine ⟨?_, hrest, ?_⟩
  · unfold Threads.line
    rw [hheld, hready, ← List.append_assoc, hback, hfront, line_turn]
  · rw [hcurrent, hlast, List.length_cons]
    omega

/-- What a batch handed over adds, in both modes. -/
theorem inFlight_handOver
    (hserial : cfg.serial = true → m.worker = .idle ∧ m.texasWorkEntriesQueue = [])
    (buffer : BufferId) (n : Nat) :
    (m.handOver cfg buffer n).inFlight = m.inFlight ++ [⟨buffer, n, m.curBatchNumber⟩] := by
  unfold Threads.handOver Threads.inFlight
  cases hs : cfg.serial with
  | false =>
      show m.worker.batches ++ (m.texasWorkEntriesQueue ++ [_]).flatMap Work.batches = _
      rw [List.flatMap_append, ← List.append_assoc]
      rfl
  | true =>
      obtain ⟨hidle, hempty⟩ := hserial hs
      show [_] ++ m.texasWorkEntriesQueue.flatMap Work.batches
        = m.worker.batches ++ m.texasWorkEntriesQueue.flatMap Work.batches ++ [_]
      rw [hidle, hempty]
      rfl

theorem ready_handOver (buffer : BufferId) (n : Nat) :
    (m.handOver cfg buffer n).texasReadyBatchEntriesQueue = m.texasReadyBatchEntriesQueue
      ∧ (m.handOver cfg buffer n).curBatchNumber = m.curBatchNumber + 1 := by
  unfold Threads.handOver
  cases cfg.serial with
  | false => exact ⟨rfl, rfl⟩
  | true => exact ⟨rfl, rfl⟩

theorem held_of_none (hnone : m.texasWorkEntries = none) : m.held = [] := by
  unfold Threads.held
  rw [hnone]
  split
  · rfl
  · rfl

theorem held_of_reported (hphase : m.phase ≠ .calling) : m.held = [] := if_neg hphase

/-- A move of the producer. -/
theorem Ring.producerStep (h : m.Ring k)
    (hwait : m.texasWorkEntries = none → m.phase = .calling)
    (hempty : cfg.serial = true → m.texasWorkEntriesQueue = [])
    (hstep : m.producerStep cfg = some m') : m'.Ring k := by
  obtain ⟨hidle, hmove⟩ := Threads.producerStep_move hstep
  have hserial : cfg.serial = true → m.worker = .idle ∧ m.texasWorkEntriesQueue = [] :=
    fun hs => ⟨hidle hs, hempty hs⟩
  cases hmove with
  | @takeBuffer buffer rest hbuf hq =>
      refine h.congr rfl ?_ rfl
      have hheld : { m with
          texasWorkEntries := some buffer, texasReadyBatchEntriesQueue := rest }.held
          = [buffer] := Threads.held_eq (hwait hbuf) rfl
      unfold Threads.line
      rw [hheld, held_of_none hbuf, hq, List.append_nil, List.append_assoc]
      rfl
  | @full buffer w evs' hbuf hphase _ _ =>
      rw [Threads.batchFull_eq m m.events]
      exact h.handOver (Threads.held_eq hphase hbuf) (inFlight_handOver hserial buffer _)
        (held_of_none rfl) (ready_handOver buffer _).1 (ready_handOver buffer _).2
  | fill _ _ _ _ => exact h.congr rfl rfl rfl
  | @flush buffer evs' hbuf hphase _ =>
      rw [Threads.batchFull_eq]
      exact h.handOver (Threads.held_eq hphase hbuf) (inFlight_handOver hserial buffer _)
        (held_of_none rfl) (ready_handOver buffer _).1 (ready_handOver buffer _).2
  | @report buffer hbuf hphase _ =>
      exact h.handOver (Threads.held_eq hphase hbuf) (inFlight_handOver hserial buffer _)
        (held_of_reported (by simp)) (ready_handOver buffer _).1 (ready_handOver buffer _).2
  | kill hphase _ =>
      have hflight : { m with
          phase := .killed
          texasWorkEntriesQueue := m.texasWorkEntriesQueue ++ [Work.killBatch] }.inFlight
          = m.inFlight := by
        unfold Threads.inFlight
        rw [List.flatMap_append, List.flatMap_singleton]
        exact congrArg (_ ++ ·) (List.append_nil _)
      have hheld : m.held = [] := held_of_reported (by rw [hphase]; simp)
      refine h.congr hflight ?_ rfl
      unfold Threads.line
      rw [hflight, hheld, held_of_reported (by simp)]

/-- A move of the worker: only a returned buffer turns the line. -/
theorem Ring.workerStep (h : m.Ring k) (hstep : m.workerStep cfg = some m') :
    ∃ k', m'.Ring k' := by
  have hflight : ∀ {job : Work} {rest : List Work}, m.worker = .idle →
      m.texasWorkEntriesQueue = job :: rest →
      m.inFlight = job.batches ++ rest.flatMap Work.batches := by
    intro job rest hidle hq
    unfold Threads.inFlight
    rw [hidle, hq]
    rfl
  cases Threads.workerStep_move hstep with
  | stop hidle hq =>
      have hsame := hflight hidle hq
      refine ⟨k, h.congr hsame.symm ?_ rfl⟩
      unfold Threads.line
      rw [hsame]
      rfl
  | start hidle hq =>
      have hsame := hflight hidle hq
      refine ⟨k, h.congr hsame.symm ?_ rfl⟩
      unfold Threads.line
      rw [hsame]
      rfl
  | @visit b i hworker _ =>
      have hsame : m.inFlight = b :: m.texasWorkEntriesQueue.flatMap Work.batches := by
        unfold Threads.inFlight
        rw [hworker]
        rfl
      refine ⟨k, h.congr hsame.symm ?_ rfl⟩
      unfold Threads.line
      rw [hsame]
      rfl
  | @giveBack b i hworker _ =>
      refine ⟨k + 1, h.giveBack ?_ rfl rfl rfl⟩
      unfold Threads.inFlight
      rw [hworker]
      rfl

end Steps

end Threads

-- ================================================================= runs

section Runs

variable {cfg : Config} {evs : List Event} {m p w : Threads} {k : Nat}

/-- Every interleaving keeps the line. -/
theorem Threads.Sound.ring_run (hW : 1 ≤ cfg.window) (schedule : List Turn) :
    ∀ {m : Threads} {k : Nat}, m.Sound cfg evs → m.Ring k →
      ∃ k', (m.run cfg schedule).Ring k' := by
  induction schedule with
  | nil => intro m k _ hring; exact ⟨k, hring⟩
  | cons t schedule ih =>
      intro m k h hring
      obtain ⟨k', hring'⟩ : ∃ k', (m.turn cfg t).Ring k' := by
        unfold Threads.turn
        cases hstep : m.step cfg t with
        | none => exact ⟨k, hring⟩
        | some m' =>
            obtain ⟨⟨ps, ds, cur, qbs, hinv⟩, hserial⟩ := h
            cases t with
            | producer =>
                exact ⟨k, hring.producerStep (fun hnone => (hinv.producer.waiting hnone).2)
                  (fun hs => (hserial hs).1) hstep⟩
            | worker => exact hring.workerStep hstep
      exact ih (h.turn hW t) hring'

/-- The line up to the buffers in flight, and from there on. -/
theorem Threads.Ring.split (h : m.Ring k) :
    m.inFlight.map ShadowBatch.shadowEntries
        = (List.range' k m.inFlight.length).map (· % numBatches)
      ∧ m.held ++ m.texasReadyBatchEntriesQueue
        = (List.range' m.curBatchNumber (numBatches - m.inFlight.length)).map (· % numBatches)
      ∧ m.inFlight.length ≤ numBatches := by
  have hline := h.line
  unfold Threads.line at hline
  rw [List.append_assoc] at hline
  have hle : m.inFlight.length ≤ numBatches := by
    have hlen := congrArg List.length hline
    rw [List.length_append, List.length_map, List.length_map, List.length_range'] at hlen
    omega
  have hsplit : List.range' k numBatches = List.range' k m.inFlight.length
      ++ List.range' m.curBatchNumber (numBatches - m.inFlight.length) := by
    rw [h.current, List.range'_append_1, Nat.add_sub_cancel' hle]
  rw [hsplit, List.map_append] at hline
  obtain ⟨hfront, hback⟩ := List.append_inj hline (by simp)
  exact ⟨hfront, hback, hle⟩

/-- Batch `k` is in buffer `k % NUM_BATCHES`. -/
theorem Threads.Ring.buffer_of_batch (h : m.Ring k) {b : ShadowBatch} (hb : b ∈ m.inFlight) :
    b.shadowEntries = b.batchNumber % numBatches := by
  have hsame : m.inFlight.map ShadowBatch.shadowEntries
      = m.inFlight.map fun b => b.batchNumber % numBatches := by
    rw [h.split.1, ← h.numbers, List.map_map]
    rfl
  exact List.map_inj_left.mp hsame b hb

/-- So is the one being filled. -/
theorem Threads.Ring.buffer_of_held (h : m.Ring k) {buffer : BufferId}
    (hbuf : buffer ∈ m.held) : buffer = m.curBatchNumber % numBatches := by
  obtain ⟨-, hback, -⟩ := h.split
  unfold Threads.held at hbuf hback
  split at hbuf
  next hphase =>
    rw [if_pos hphase, Option.mem_toList.mp hbuf] at hback
    cases hn : numBatches - m.inFlight.length with
    | zero =>
        rw [hn] at hback
        cases hback
    | succ n =>
        rw [hn, List.range'_succ, List.map_cons] at hback
        exact (List.cons.inj hback).1
  next => cases hbuf

/-- The bound of the line. -/
theorem Threads.Ring.length_le (h : m.Ring k) :
    m.inFlight.length + m.held.length ≤ numBatches := by
  obtain ⟨-, hback, hle⟩ := h.split
  have hlen := congrArg List.length hback
  rw [List.length_append, List.length_map, List.length_range'] at hlen
  omega

/-- The batches in flight are the last ones handed over. -/
theorem Threads.Ring.batchNumbers (h : m.Ring k) :
    m.inFlight.map ShadowBatch.batchNumber
      = List.range' (m.curBatchNumber - m.inFlight.length) m.inFlight.length := by
  rw [h.current, Nat.add_sub_cancel]
  exact h.numbers

-- =============================================================== the stores

/-- What is in flight, by the ghosts of the invariant. -/
theorem QueueInv.inFlight_eq {ps : List Batch} {ds : List (List SlotWrite)}
    {qbs : List ShadowBatch} (h : QueueInv m ps ds qbs) :
    m.inFlight = m.worker.batches ++ qbs := by
  have hjobs : ∀ bs : List ShadowBatch, (bs.map Work.newBatch).flatMap Work.batches = bs := by
    intro bs
    rw [List.flatMap_map]
    exact List.flatMap_singleton' bs
  unfold Threads.inFlight
  rw [h.queue, List.flatMap_append, hjobs]
  split
  · exact congrArg (_ ++ ·) (List.append_nil _)
  · exact congrArg (_ ++ ·) (List.append_nil _)

/-- Handing a batch over writes to its own buffer, or to none. -/
theorem Threads.memory_handOver (buffer : BufferId) (n : Nat) {c : BufferId} (hc : c ≠ buffer) :
    (m.handOver cfg buffer n).memory c = m.memory c := by
  unfold Threads.handOver
  cases cfg.serial with
  | false => rfl
  | true => exact Function.update_of_ne hc ..

/-- The program stores to the buffer it fills. -/
theorem Threads.memory_producerStep (hp : m.producerStep cfg = some p) {c : BufferId}
    (hc : p.memory c ≠ m.memory c) : m.phase = .calling ∧ m.texasWorkEntries = some c := by
  have hown : ∀ {buffer : BufferId}, m.texasWorkEntries = some buffer → m.phase = .calling →
      (c ≠ buffer → p.memory c = m.memory c) →
      m.phase = .calling ∧ m.texasWorkEntries = some c := by
    intro buffer hbuf hphase hframe
    by_cases heq : c = buffer
    · rw [heq]
      exact ⟨hphase, hbuf⟩
    · exact absurd (hframe heq) hc
  cases (Threads.producerStep_move hp).2 with
  | takeBuffer _ _ => exact absurd rfl hc
  | @full buffer w evs' hbuf hphase _ _ =>
      exact hown hbuf hphase fun heq => Threads.memory_handOver buffer _ heq
  | fill hbuf hphase _ _ => exact hown hbuf hphase fun heq => Function.update_of_ne heq ..
  | @flush buffer evs' hbuf hphase _ =>
      exact hown hbuf hphase fun heq =>
        Threads.memory_handOver (m := { m with events := evs' }) buffer _ heq
  | @report buffer hbuf hphase _ =>
      exact hown hbuf hphase fun heq => Threads.memory_handOver buffer _ heq
  | kill _ _ => exact absurd rfl hc

/-- The worker stores to the buffer of the oldest batch. -/
theorem Threads.memory_workerStep (hw : m.workerStep cfg = some w) {c : BufferId}
    (hc : w.memory c ≠ m.memory c) : ∃ b, m.inFlight.head? = some b ∧ c = b.shadowEntries := by
  cases Threads.workerStep_move hw with
  | stop _ _ => exact absurd rfl hc
  | @start b rest hidle hq =>
      refine ⟨b, ?_, ?_⟩
      · unfold Threads.inFlight
        rw [hidle, hq]
        rfl
      · by_contra heq
        exact hc (Function.update_of_ne heq ..)
  | visit _ _ => exact absurd rfl hc
  | giveBack _ _ => exact absurd rfl hc

end Runs

/-- In every state of every interleaving the batches in flight are the
last ones handed over, oldest first; there are at most `NUM_BATCHES`;
batch `k` is in buffer `k % NUM_BATCHES`, and the buffer being filled is
the one the next batch number says. -/
theorem buffers_of_run (cfg : Config) (hW : 1 ≤ cfg.window)
    (memory : BufferId → Nat → ShadowEntry) (evs : List Event) (schedule : List Turn) :
    let m := (Threads.init memory evs).run cfg schedule
    m.inFlight.length + m.held.length ≤ numBatches
      ∧ m.inFlight.map ShadowBatch.batchNumber
        = List.range' (m.curBatchNumber - m.inFlight.length) m.inFlight.length
      ∧ (∀ b ∈ m.inFlight, b.shadowEntries = b.batchNumber % numBatches)
      ∧ ∀ buffer ∈ m.held, buffer = m.curBatchNumber % numBatches := by
  intro m
  obtain ⟨k, h⟩ := (Threads.sound_init cfg memory evs).ring_run hW schedule
    (Threads.ring_init memory evs)
  exact ⟨h.length_le, h.batchNumbers, fun b hb => h.buffer_of_batch hb,
    fun buffer hbuf => h.buffer_of_held hbuf⟩

/-- Two batches handed over before the worker begins. -/
theorem buffers_of_run_ahead :
    let cfg : Config := ⟨Env.ofTree .flat, 1, fun _ => .redundant⟩
    let m := (Threads.init (fun _ _ => .redundant) (programEvents cfg
      [.addToAllocationTable 100 8 1, .addToAllocationTable 200 8 2])).run cfg
        (List.replicate 5 .producer)
    m.inFlight.length = 2 ∧ ∀ b ∈ m.inFlight, b.shadowEntries = b.batchNumber % numBatches := by
  intro cfg m
  exact ⟨by decide, (buffers_of_run cfg (by decide) _ _ _).2.2.1⟩

end Carmot.Texas
