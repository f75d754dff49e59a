/-
Every interleaving does what the serial pipeline does.

The invariant is in three parts. The producer's: the batches handed
over and the slots filled so far are those `divide` cuts the events
into. The queue's: the batches in flight are numbered consecutively,
and no two holders share a buffer, so whoever holds one is the only
thread that touches it. The worker's: what it has finished is a run of
`runBatches`, and what it has visited of the batch at hand is a prefix
of it. Its ghosts are the finished batches `ps`, the writes of all
batches handed over `ds`, the writes of the current buffer `cur` and
the queued batches `qbs`.

A finished run therefore visits, batch by batch, every filled slot in
order, and after them the slot at index `numEntries`
(`visited_finished`). That slot is never a filled one, so a run never
visits exactly the slots that were filled.
-/
import Mathlib.Data.List.Forall2
import Carmot.Texas.Threads
import Carmot.Texas.Proofs.Stream

namespace Carmot.Texas

-- ================================================================= logs

/-- The slots of consecutive batches of the given sizes. -/
def slotRefs : Nat → List Nat → List SlotRef
  | _, [] => []
  | k, n :: ns => (List.range n).map (SlotRef.mk k) ++ slotRefs (k + 1) ns

theorem slotRefs_append (ns ms : List Nat) :
    ∀ k, slotRefs k (ns ++ ms) = slotRefs k ns ++ slotRefs (k + ns.length) ms := by
  induction ns with
  | nil => intro k; rfl
  | cons n ns ih =>
      intro k
      show _ ++ slotRefs (k + 1) (ns ++ ms) = (_ ++ slotRefs (k + 1) ns) ++ _
      rw [ih, List.append_assoc, List.length_cons, Nat.add_right_comm, ← Nat.add_assoc]

/-- One more slot in the last batch. -/
theorem slotRefs_succ (ns : List Nat) (n : Nat) :
    slotRefs 0 (ns ++ [n + 1]) = slotRefs 0 (ns ++ [n]) ++ [⟨ns.length, n⟩] := by
  rw [slotRefs_append, slotRefs_append, List.append_assoc, Nat.zero_add]
  simp only [slotRefs, List.append_nil, List.range_succ, List.map_append, List.map_cons,
    List.map_nil]

/-- An empty batch has no slots. -/
theorem slotRefs_zero (ns : List Nat) : slotRefs 0 (ns ++ [0]) = slotRefs 0 ns := by
  rw [slotRefs_append]
  simp [slotRefs]

/-- The visits of one batch. -/
def visits (k : Nat) (es : List ShadowEntry) : List (SlotRef × ShadowEntry) :=
  es.mapIdx fun i e => (⟨k, i⟩, e)

theorem visits_range (k n : Nat) (f : Nat → ShadowEntry) :
    visits k ((List.range n).map f) = (List.range n).map fun i => (⟨k, i⟩, f i) := by
  apply List.ext_getElem
  · simp [visits]
  · intro i h₁ h₂
    simp [visits]

theorem visits_refs (k : Nat) (es : List ShadowEntry) :
    (visits k es).map Prod.fst = (List.range es.length).map (SlotRef.mk k) := by
  apply List.ext_getElem
  · simp [visits]
  · intro i h₁ h₂
    simp [visits]

theorem visits_entries (k : Nat) (es : List ShadowEntry) :
    (visits k es).map Prod.snd = es := by
  apply List.ext_getElem
  · simp [visits]
  · intro i h₁ h₂
    simp [visits]

/-- What processing finished batches visits, from batch number `k`
on. -/
def visitLog (env : Env) : Runtime → Nat → List Batch → List (SlotRef × ShadowEntry)
  | _, _, [] => []
  | rt, k, b :: bs =>
      visits k ((cleanBatch env rt b.entries).2 ++ [b.overrun])
        ++ visitLog env (serialProcessShadowBatch env rt b) (k + 1) bs

theorem visitLog_concat (env : Env) (bs : List Batch) (b : Batch) :
    ∀ rt k, visitLog env rt k (bs ++ [b])
      = visitLog env rt k bs
        ++ visits (k + bs.length)
          ((cleanBatch env (runBatches env rt bs) b.entries).2 ++ [b.overrun]) := by
  induction bs with
  | nil => intro rt k; exact List.append_nil _
  | cons c bs ih =>
      intro rt k
      show visits k _ ++ visitLog env _ (k + 1) (bs ++ [b])
        = (visits k _ ++ visitLog env _ (k + 1) bs) ++ _
      rw [ih, List.append_assoc, List.length_cons, Nat.add_right_comm, ← Nat.add_assoc]
      rfl

theorem length_firstPass (env : Env) (es : List ShadowEntry) :
    ∀ cl : Cleaner, (firstPass env cl es).2.length = es.length := by
  induction es with
  | nil => intro cl; rfl
  | cons e es ih => intro cl; exact congrArg (· + 1) (ih _)

theorem length_cleanBatch (env : Env) (rt : Runtime) (es : List ShadowEntry) :
    (cleanBatch env rt es).2.length = es.length := by
  show ((firstPass env rt.cleaner es).2.map _).length = es.length
  rw [List.length_map, length_firstPass]

/-- The slots visited: one more than filled in every batch. -/
theorem visitLog_refs (env : Env) (bs : List Batch) :
    ∀ rt k, (visitLog env rt k bs).map Prod.fst
      = slotRefs k (bs.map fun b => b.entries.length + 1) := by
  induction bs with
  | nil => intro rt k; rfl
  | cons b bs ih =>
      intro rt k
      rw [visitLog, List.map_append, ih, visits_refs, List.length_append, length_cleanBatch]
      rfl

/-- The entries visited are the executed ones. -/
theorem visitLog_entries (env : Env) (bs : List Batch) :
    ∀ rt k, (visitLog env rt k bs).map Prod.snd = executed env rt bs := by
  induction bs with
  | nil => intro rt k; rfl
  | cons b bs ih =>
      intro rt k
      rw [visitLog, List.map_append, ih, visits_entries, List.append_assoc]
      rfl

-- ============================================================ the ghosts

/-- The slots hold the writes, over whatever they held before. -/
def Loaded (ws : List SlotWrite) (es : List ShadowEntry) : Prop :=
  List.Forall₂ (fun w e => ∃ slot, e = SlotWrite.fill slot w) ws es

theorem Loaded.length_eq {ws : List SlotWrite} {es : List ShadowEntry} (h : Loaded ws es) :
    es.length = ws.length := (List.Forall₂.length_eq h).symm

theorem lengths_of_loaded {ds : List (List SlotWrite)} {bs : List Batch}
    (h : List.Forall₂ (fun ws b => Loaded ws b.entries) ds bs) :
    (bs.map fun b => b.entries.length) = ds.map List.length := by
  induction h with
  | nil => rfl
  | cons hb _ ih => rw [List.map_cons, List.map_cons, ih, hb.length_eq]

/-- The batch the worker is processing. -/
def Worker.batches : Worker → List ShadowBatch
  | .processing b _ => [b]
  | _ => []

/-- Has the worker not seen the kill batch yet? -/
def Worker.running : Worker → Bool
  | .stopped => false
  | _ => true

/-- The buffer the producer fills. -/
def Threads.held (m : Threads) : List BufferId :=
  if m.phase = .calling then m.texasWorkEntries.toList else []

/-- The producer's part of the invariant. -/
structure ProducerInv (cfg : Config) (evs : List Event) (m : Threads)
    (ds : List (List SlotWrite)) (cur : List SlotWrite) : Prop where
  division : divide cfg.window [] evs
    = ds ++ if m.phase = .calling then divide cfg.window cur m.events else []
  number : m.curBatchNumber = ds.length
  fits : ∀ ws ∈ ds ++ [cur], ws.length ≤ cfg.window
  filled : m.filled = slotRefs 0 ((ds ++ [cur]).map List.length)
  slotStart : m.phase = .calling → m.slotStart = cur.length
  current : ∀ buffer, m.phase = .calling → m.texasWorkEntries = some buffer →
    Loaded cur ((List.range cur.length).map (m.memory buffer))
  waiting : m.texasWorkEntries = none → cur = [] ∧ m.phase = .calling
  reported : m.phase ≠ .calling → cur = []

/-- The queues' part. -/
structure QueueInv (m : Threads) (ps : List Batch) (ds : List (List SlotWrite))
    (qbs : List ShadowBatch) : Prop where
  queue : m.texasWorkEntriesQueue = qbs.map Work.newBatch
    ++ if m.phase = .killed ∧ m.worker.running = true then [.killBatch] else []
  numbers : (m.worker.batches ++ qbs).map ShadowBatch.batchNumber
    = List.range' ps.length (ds.length - ps.length)
  sizes : ∀ b ∈ m.worker.batches ++ qbs, ∀ ws, ds[b.batchNumber]? = some ws →
    b.numEntries = ws.length
  loaded : ∀ b ∈ qbs, ∀ ws, ds[b.batchNumber]? = some ws → Loaded ws (m.entries b)
  owned : (m.held ++ (m.worker.batches ++ qbs).map ShadowBatch.shadowEntries
    ++ m.texasReadyBatchEntriesQueue).Perm (List.range numBatches)
  stopped : m.worker = .stopped → qbs = [] ∧ m.phase = .killed

/-- The worker's part. -/
structure WorkerInv (cfg : Config) (m : Threads) (ps : List Batch)
    (ds : List (List SlotWrite)) : Prop where
  done : List.Forall₂ (fun ws b => Loaded ws b.entries) (ds.take ps.length) ps
  resting : m.worker.batches = [] → m.rt = runBatches cfg.env texasInit ps
    ∧ m.visited = visitLog cfg.env texasInit 0 ps
  processing : ∀ b i, m.worker = .processing b i →
    ∃ ws es, ds[b.batchNumber]? = some ws ∧ Loaded ws es ∧ i ≤ b.numEntries + 1
      ∧ m.entries b = (cleanBatch cfg.env (runBatches cfg.env texasInit ps) es).2
      ∧ m.rt = processEntries cfg.env (cleanBatch cfg.env (runBatches cfg.env texasInit ps) es).1
        ((List.range i).map (m.slot cfg b))
      ∧ m.visited = visitLog cfg.env texasInit 0 ps
        ++ (List.range i).map fun j => (⟨b.batchNumber, j⟩, m.slot cfg b j)

/-- The invariant. -/
structure ThreadsInv (cfg : Config) (evs : List Event) (m : Threads) (ps : List Batch)
    (ds : List (List SlotWrite)) (cur : List SlotWrite) (qbs : List ShadowBatch) : Prop where
  producer : ProducerInv cfg evs m ds cur
  queue : QueueInv m ps ds qbs
  worker : WorkerInv cfg m ps ds

theorem threadsInv_init (cfg : Config) (memory : BufferId → Nat → ShadowEntry)
    (evs : List Event) : ThreadsInv cfg evs (Threads.init memory evs) [] [] [] [] := by
  refine ⟨⟨rfl, rfl, ?_, rfl, fun _ => rfl, ?_, fun _ => ⟨rfl, rfl⟩, fun _ => rfl⟩,
    ⟨rfl, rfl, ?_, ?_, List.Perm.refl _, ?_⟩, ⟨List.Forall₂.nil, fun _ => ⟨rfl, rfl⟩, ?_⟩⟩
  · intro ws hws
    rw [List.mem_singleton.mp hws]
    exact Nat.zero_le _
  · intro buffer _ _
    exact List.Forall₂.nil
  · intro b hb
    cases hb
  · intro b hb
    cases hb
  · intro h
    cases h
  · intro b i h
    cases h

-- ============================================================== framing

section Frame

variable {cfg : Config} {m m' : Threads} {b : ShadowBatch}

theorem Threads.entries_congr (h : m'.memory b.shadowEntries = m.memory b.shadowEntries) :
    m'.entries b = m.entries b := by
  unfold Threads.entries
  rw [h]

theorem Threads.slot_congr (h : m'.memory b.shadowEntries = m.memory b.shadowEntries) :
    m'.slot cfg b = m.slot cfg b := by
  funext i
  unfold Threads.slot
  rw [h]

/-- Stores to a buffer the worker does not hold are not its business. -/
theorem WorkerInv.frame {ps : List Batch} {ds : List (List SlotWrite)}
    (h : WorkerInv cfg m ps ds) (hworker : m'.worker = m.worker) (hrt : m'.rt = m.rt)
    (hvisited : m'.visited = m.visited)
    (hmem : ∀ b ∈ m.worker.batches, m'.memory b.shadowEntries = m.memory b.shadowEntries) :
    WorkerInv cfg m' ps ds := by
  refine ⟨h.done, ?_, ?_⟩
  · rw [hworker, hrt, hvisited]
    exact h.resting
  · intro b i hb
    rw [hworker] at hb
    have hsame := hmem b (by rw [hb]; exact List.mem_singleton.mpr rfl)
    rw [Threads.entries_congr hsame, Threads.slot_congr hsame, hrt, hvisited]
    exact h.processing b i hb

/-- More batches handed over do not change what the worker did. -/
theorem WorkerInv.extend {ps : List Batch} {ds : List (List SlotWrite)} (ws : List SlotWrite)
    (h : WorkerInv cfg m ps ds) (hle : ps.length ≤ ds.length) :
    WorkerInv cfg m ps (ds ++ [ws]) := by
  refine ⟨?_, h.resting, ?_⟩
  · rw [List.take_append_of_le_length hle]
    exact h.done
  · intro b i hb
    obtain ⟨ws', es, hws, hrest⟩ := h.processing b i hb
    refine ⟨ws', es, ?_, hrest⟩
    rw [List.getElem?_append_left (List.getElem?_eq_some_iff.mp hws).1]
    exact hws

end Frame

-- ================================================================ moves

namespace Threads

/-- What a turn of the producer can do. -/
inductive ProducerMove (cfg : Config) (m : Threads) : Threads → Prop
  | takeBuffer {buffer : BufferId} {rest : List BufferId} (hbuf : m.texasWorkEntries = none)
      (hq : m.texasReadyBatchEntriesQueue = buffer :: rest) :
      ProducerMove cfg m
        { m with texasWorkEntries := some buffer, texasReadyBatchEntriesQueue := rest }
  | full {buffer : BufferId} {w : SlotWrite} {evs' : List Event}
      (hbuf : m.texasWorkEntries = some buffer) (hphase : m.phase = .calling)
      (hevs : m.events = .write w :: evs') (hfull : m.slotStart ≥ cfg.window) :
      ProducerMove cfg m (m.batchFull cfg buffer true)
  | fill {buffer : BufferId} {w : SlotWrite} {evs' : List Event}
      (hbuf : m.texasWorkEntries = some buffer) (hphase : m.phase = .calling)
      (hevs : m.events = .write w :: evs') (hroom : ¬ m.slotStart ≥ cfg.window) :
      ProducerMove cfg m ({ m with events := evs' }.fillSlot buffer w)
  | flush {buffer : BufferId} {evs' : List Event} (hbuf : m.texasWorkEntries = some buffer)
      (hphase : m.phase = .calling) (hevs : m.events = .flush :: evs') :
      ProducerMove cfg m ({ m with events := evs' }.batchFull cfg buffer false)
  | report {buffer : BufferId} (hbuf : m.texasWorkEntries = some buffer)
      (hphase : m.phase = .calling) (hevs : m.events = []) :
      ProducerMove cfg m { m.handOver cfg buffer m.slotStart with phase := .reported }
  | kill (hphase : m.phase = .reported) (hserial : ¬ cfg.serial = true) :
      ProducerMove cfg m
        { m with
          phase := .killed
          texasWorkEntriesQueue := m.texasWorkEntriesQueue ++ [.killBatch] }

/-- What a turn of the worker can do. -/
inductive WorkerMove (cfg : Config) (m : Threads) : Threads → Prop
  | stop {rest : List Work} (hidle : m.worker = .idle)
      (hq : m.texasWorkEntriesQueue = .killBatch :: rest) :
      WorkerMove cfg m { m with texasWorkEntriesQueue := rest, worker := .stopped }
  | start {b : ShadowBatch} {rest : List Work} (hidle : m.worker = .idle)
      (hq : m.texasWorkEntriesQueue = .newBatch b :: rest) :
      WorkerMove cfg m ({ m with texasWorkEntriesQueue := rest }.startBatch cfg b)
  | visit {b : ShadowBatch} {i : Nat} (hworker : m.worker = .processing b i)
      (hi : i ≤ b.numEntries) :
      WorkerMove cfg m
        { m with
          rt := processEntry cfg.env m.rt (m.slot cfg b i)
          visited := m.visited ++ [(⟨b.batchNumber, i⟩, m.slot cfg b i)]
          worker := .processing b (i + 1) }
  | giveBack {b : ShadowBatch} {i : Nat} (hworker : m.worker = .processing b i)
      (hi : ¬ i ≤ b.numEntries) :
      WorkerMove cfg m
        { m with
          texasReadyBatchEntriesQueue := m.texasReadyBatchEntriesQueue ++ [b.shadowEntries]
          worker := .idle }

variable {cfg : Config} {m m' : Threads}

/-- With one thread the producer waits for the worker. -/
theorem producerStep_move (hstep : m.producerStep cfg = some m') :
    (cfg.serial = true → m.worker = .idle) ∧ m.ProducerMove cfg m' := by
  unfold Threads.producerStep at hstep
  split at hstep
  · cases hstep
  next hfree =>
    constructor
    · intro hs
      by_contra hne
      exact hfree ⟨hs, hne⟩
    · split at hstep
      next hbuf =>
        split at hstep
        · cases hstep
        next buffer rest hq =>
          injection hstep with hstep
          rw [← hstep]
          exact .takeBuffer hbuf hq
      next buffer hbuf =>
        split at hstep
        next w evs' hphase hevs =>
          split at hstep
          next hfull =>
            injection hstep with hstep
            rw [← hstep]
            exact .full hbuf hphase hevs hfull
          next hroom =>
            injection hstep with hstep
            rw [← hstep]
            exact .fill hbuf hphase hevs hroom
        next evs' hphase hevs =>
          injection hstep with hstep
          rw [← hstep]
          exact .flush hbuf hphase hevs
        next hphase hevs =>
          injection hstep with hstep
          rw [← hstep]
          exact .report hbuf hphase hevs
        next hphase =>
          split at hstep
          · cases hstep
          next hserial =>
            injection hstep with hstep
            rw [← hstep]
            exact .kill hphase hserial
        · cases hstep

theorem workerStep_move (hstep : m.workerStep cfg = some m') : m.WorkerMove cfg m' := by
  unfold Threads.workerStep at hstep
  split at hstep
  next hidle =>
    split at hstep
    · cases hstep
    next rest hq =>
      injection hstep with hstep
      rw [← hstep]
      exact .stop hidle hq
    next b rest hq =>
      injection hstep with hstep
      rw [← hstep]
      exact .start hidle hq
  next b i hworker =>
    split at hstep
    next hi =>
      injection hstep with hstep
      rw [← hstep]
      exact .visit hworker hi
    next hi =>
      injection hstep with hstep
      rw [← hstep]
      exact .giveBack hworker hi
  · cases hstep

end Threads

-- ================================================================ steps

section Steps

variable {cfg : Config} {evs : List Event} {m : Threads} {ps : List Batch}
  {ds : List (List SlotWrite)} {cur : List SlotWrite} {qbs : List ShadowBatch}

theorem Threads.held_eq {buffer : BufferId} (hphase : m.phase = .calling)
    (hbuf : m.texasWorkEntries = some buffer) : m.held = [buffer] := by
  unfold Threads.held
  rw [if_pos hphase, hbuf]
  rfl

/-- A buffer in the queue or with the worker is not the producer's. -/
theorem QueueInv.ne_held (h : QueueInv m ps ds qbs) {buffer : BufferId}
    (hphase : m.phase = .calling) (hbuf : m.texasWorkEntries = some buffer) {b : ShadowBatch}
    (hb : b ∈ m.worker.batches ++ qbs) : b.shadowEntries ≠ buffer := by
  have howned := h.owned.nodup_iff.mpr List.nodup_range
  rw [Threads.held_eq hphase hbuf, List.append_assoc, List.singleton_append] at howned
  intro heq
  refine (List.nodup_cons.mp howned).1 (List.mem_append_left _ ?_)
  rw [← heq]
  exact List.mem_map_of_mem hb

/-- Fewer batches were finished than handed over. -/
theorem WorkerInv.length_le (h : WorkerInv cfg m ps ds) : ps.length ≤ ds.length := by
  have hlen := List.Forall₂.length_eq h.done
  rw [List.length_take] at hlen
  omega

/-- `waitPop` gives the producer a buffer nobody holds. -/
theorem ThreadsInv.takeBuffer (h : ThreadsInv cfg evs m ps ds cur qbs)
    (hwait : m.texasWorkEntries = none) {buffer : BufferId} {rest : List BufferId}
    (hready : m.texasReadyBatchEntriesQueue = buffer :: rest) :
    ThreadsInv cfg evs
      { m with texasWorkEntries := some buffer, texasReadyBatchEntriesQueue := rest }
      ps ds cur qbs := by
  obtain ⟨hcur, hphase⟩ := h.producer.waiting hwait
  refine ⟨⟨h.producer.division, h.producer.number, h.producer.fits, h.producer.filled,
    h.producer.slotStart, ?_, (fun hnone => by cases hnone), h.producer.reported⟩,
    ⟨h.queue.queue, h.queue.numbers, h.queue.sizes, h.queue.loaded, ?_, h.queue.stopped⟩,
    h.worker.frame rfl rfl rfl fun _ _ => rfl⟩
  · intro _ _ _
    rw [hcur]
    exact List.Forall₂.nil
  · have howned := h.queue.owned
    have hheld : m.held = [] := by
      unfold Threads.held
      rw [hwait, if_pos hphase]
      rfl
    rw [hheld, hready, List.nil_append] at howned
    unfold Threads.held
    dsimp only
    rw [if_pos hphase, List.append_assoc]
    exact (List.perm_middle.symm : (buffer :: (_ ++ rest)).Perm _).trans howned

/-- Filling a slot. -/
theorem ThreadsInv.fill (h : ThreadsInv cfg evs m ps ds cur qbs)
    (hphase : m.phase = .calling) {buffer : BufferId} (hbuf : m.texasWorkEntries = some buffer)
    {w : SlotWrite} {evs' : List Event} (hevs : m.events = .write w :: evs')
    (hroom : m.slotStart < cfg.window) :
    ThreadsInv cfg evs ({ m with events := evs' }.fillSlot buffer w) ps ds (cur ++ [w]) qbs := by
  have hstart := h.producer.slotStart hphase
  have hother : ∀ b ∈ m.worker.batches ++ qbs,
      ({ m with events := evs' }.fillSlot buffer w).memory b.shadowEntries
        = m.memory b.shadowEntries := by
    intro b hb
    exact Function.update_of_ne (h.queue.ne_held hphase hbuf hb) ..
  refine ⟨⟨?_, h.producer.number, ?_, ?_, fun _ => ?_, ?_, ?_, ?_⟩,
    ⟨h.queue.queue, h.queue.numbers, h.queue.sizes, ?_, h.queue.owned, h.queue.stopped⟩,
    h.worker.frame rfl rfl rfl fun b hb => hother b (List.mem_append_left _ hb)⟩
  · have hdiv := h.producer.division
    rw [if_pos hphase, hevs, divide, if_neg (by omega)] at hdiv
    show _ = ds ++ if m.phase = .calling then _ else _
    rw [if_pos hphase]
    exact hdiv
  · intro ws hws
    rcases List.mem_append.mp hws with hws | hws
    · exact h.producer.fits ws (List.mem_append_left _ hws)
    · rw [List.mem_singleton.mp hws, List.length_append]
      show cur.length + 1 ≤ cfg.window
      omega
  · show m.filled ++ [SlotRef.mk m.curBatchNumber m.slotStart] = _
    rw [h.producer.filled, h.producer.number, hstart, List.map_append, List.map_append]
    show _ = slotRefs 0 (ds.map List.length ++ [(cur ++ [w]).length])
    rw [List.length_append, List.length_singleton, slotRefs_succ, List.length_map]
    rfl
  · show m.slotStart + 1 = _
    rw [hstart, List.length_append]
    rfl
  · intro buffer' _ hbuf'
    have heq : buffer' = buffer := by
      have hsome : m.texasWorkEntries = some buffer' := hbuf'
      rw [hbuf] at hsome
      injection hsome with hsome
      exact hsome.symm
    subst heq
    show Loaded _ ((List.range (cur ++ [w]).length).map (Function.update m.memory buffer' _ buffer'))
    rw [Function.update_self, List.length_append, List.length_singleton, List.range_succ,
      List.map_append, hstart]
    refine List.rel_append ?_ ?_
    · have hold := h.producer.current buffer' hphase hbuf
      have hkeep : (List.range cur.length).map (Function.update (m.memory buffer') cur.length
            (w.fill (m.memory buffer' cur.length)))
          = (List.range cur.length).map (m.memory buffer') := by
        apply List.map_congr_left
        intro i hi
        exact Function.update_of_ne (Nat.ne_of_lt (List.mem_range.mp hi)) ..
      rw [hkeep]
      exact hold
    · show List.Forall₂ _ [w] [_]
      rw [Function.update_self]
      exact List.Forall₂.cons ⟨_, rfl⟩ List.Forall₂.nil
  · intro hnone
    have hnone' : m.texasWorkEntries = none := hnone
    rw [hbuf] at hnone'
    cases hnone'
  · intro hne
    exact absurd hphase hne
  · intro b hb ws hws
    rw [Threads.entries_congr (hother b (List.mem_append_right _ hb))]
    exact h.queue.loaded b hb ws hws

/-- A batch number in use is one of an earlier batch. -/
theorem QueueInv.getElem?_concat (h : QueueInv m ps ds qbs) (hle : ps.length ≤ ds.length)
    (ws : List SlotWrite) {b : ShadowBatch} (hb : b ∈ m.worker.batches ++ qbs) :
    (ds ++ [ws])[b.batchNumber]? = ds[b.batchNumber]? := by
  have hmem : b.batchNumber ∈ List.range' ps.length (ds.length - ps.length) := by
    rw [← h.numbers]
    exact List.mem_map_of_mem hb
  rw [List.mem_range'_1] at hmem
  exact List.getElem?_append_left (by omega)

/-- The queues when the current buffer is handed over: it moves from the
producer to their end. -/
theorem QueueInv.push (h : QueueInv m ps ds qbs) (hle : ps.length ≤ ds.length)
    (hnum : m.curBatchNumber = ds.length) (hphase : m.phase = .calling) {buffer : BufferId}
    (hbuf : m.texasWorkEntries = some buffer)
    (hloaded : Loaded cur ((List.range cur.length).map (m.memory buffer))) {m' : Threads}
    (hworker : m'.worker = m.worker) (hmemory : m'.memory = m.memory)
    (hready : m'.texasReadyBatchEntriesQueue = m.texasReadyBatchEntriesQueue)
    (hqueue : m'.texasWorkEntriesQueue = m.texasWorkEntriesQueue
      ++ [.newBatch ⟨buffer, cur.length, m.curBatchNumber⟩])
    (hnext : m'.phase = .calling → m'.texasWorkEntries = none) (hkilled : m'.phase ≠ .killed) :
    QueueInv m' ps (ds ++ [cur]) (qbs ++ [⟨buffer, cur.length, m.curBatchNumber⟩]) := by
  have hlast : (ds ++ [cur])[m.curBatchNumber]? = some cur := by
    rw [hnum]
    exact List.getElem?_concat_length
  have hentries : ∀ b, m'.entries b = m.entries b :=
    fun b => Threads.entries_congr (by rw [hmemory])
  refine ⟨?_, ?_, ?_, ?_, ?_, ?_⟩
  · rw [hqueue, h.queue, if_neg (fun hk => by rw [hphase] at hk; cases hk.1),
      if_neg (fun hk => hkilled hk.1), List.append_nil, List.append_nil, List.map_append]
    rfl
  · rw [hworker, ← List.append_assoc, List.map_append, h.numbers, List.length_append,
      List.length_singleton, Nat.sub_add_comm hle, List.range'_1_concat]
    show _ ++ [m.curBatchNumber] = _
    rw [hnum, Nat.add_sub_cancel' hle]
  · rw [hworker, ← List.append_assoc]
    intro b hb ws hws
    rcases List.mem_append.mp hb with hb | hb
    · rw [h.getElem?_concat hle cur hb] at hws
      exact h.sizes b hb ws hws
    · rw [List.mem_singleton.mp hb] at hws ⊢
      rw [hlast] at hws
      injection hws with hws
      rw [← hws]
  · intro b hb ws hws
    rw [hentries]
    rcases List.mem_append.mp hb with hb | hb
    · rw [h.getElem?_concat hle cur (List.mem_append_right _ hb)] at hws
      exact h.loaded b hb ws hws
    · rw [List.mem_singleton.mp hb] at hws ⊢
      rw [hlast] at hws
      injection hws with hws
      rw [← hws]
      exact hloaded
  · have howned := h.owned
    have hfree : m'.held = [] := by
      unfold Threads.held
      split
      next hc => rw [hnext hc]; rfl
      next => rfl
    rw [hfree, List.nil_append, hworker, hready]
    rw [Threads.held_eq hphase hbuf, List.append_assoc, List.singleton_append] at howned
    rw [← List.append_assoc, List.map_append, List.append_assoc]
    exact List.perm_middle.trans howned
  · intro hs
    rw [hworker] at hs
    have hbad := (h.stopped hs).2
    rw [hphase] at hbad
    cases hbad

/-- Handing the current buffer over, whatever the producer does next:
flush and go on, or report. -/
theorem ThreadsInv.push (h : ThreadsInv cfg evs m ps ds cur qbs)
    (hphase : m.phase = .calling) {buffer : BufferId} (hbuf : m.texasWorkEntries = some buffer)
    {evs' : List Event} {phase : Phase} {start : Nat} {next : Option BufferId}
    (hdiv : divide cfg.window cur m.events
      = cur :: if phase = .calling then divide cfg.window [] evs' else [])
    (hnext : phase = .calling → start = 0 ∧ next = none)
    (hwait : next = none → phase = .calling) (hkilled : phase ≠ .killed) :
    ThreadsInv cfg evs
      { m with
        events := evs'
        phase := phase
        slotStart := start
        texasWorkEntries := next
        curBatchNumber := m.curBatchNumber + 1
        texasWorkEntriesQueue := m.texasWorkEntriesQueue
          ++ [.newBatch ⟨buffer, cur.length, m.curBatchNumber⟩] }
      ps (ds ++ [cur]) [] (qbs ++ [⟨buffer, cur.length, m.curBatchNumber⟩]) := by
  have hle := h.worker.length_le
  have hnum := h.producer.number
  refine ⟨⟨?_, ?_, ?_, ?_, fun hc => (hnext hc).1, ?_, fun hn => ⟨rfl, hwait hn⟩,
      fun _ => rfl⟩,
    h.queue.push hle hnum hphase hbuf (h.producer.current buffer hphase hbuf) rfl rfl rfl rfl
      (fun hc => (hnext hc).2) hkilled,
    (h.worker.extend cur hle).frame rfl rfl rfl fun _ _ => rfl⟩
  · have hold := h.producer.division
    rw [if_pos hphase, hdiv] at hold
    rw [hold, List.append_assoc]
    rfl
  · show m.curBatchNumber + 1 = (ds ++ [cur]).length
    rw [hnum, List.length_append]
    rfl
  · intro ws hws
    rcases List.mem_append.mp hws with hws | hws
    · exact h.producer.fits ws hws
    · rw [List.mem_singleton.mp hws]
      exact Nat.zero_le _
  · show m.filled = _
    rw [h.producer.filled, @List.map_append _ _ _ (ds ++ [cur])]
    exact (slotRefs_zero _).symm
  · intro _ _ _
    exact List.Forall₂.nil

/-- Popping and cleaning a batch. -/
theorem ThreadsInv.start {b : ShadowBatch} (h : ThreadsInv cfg evs m ps ds cur (b :: qbs))
    (hidle : m.worker = .idle) {rest : List Work}
    (hqueue : m.texasWorkEntriesQueue = .newBatch b :: rest) :
    ThreadsInv cfg evs ({ m with texasWorkEntriesQueue := rest }.startBatch cfg b)
      ps ds cur qbs := by
  have hbatches : m.worker.batches = [] := by
    rw [hidle]
    rfl
  have hnumbers := h.queue.numbers
  have howned := h.queue.owned
  have hsizes := h.queue.sizes
  rw [hbatches, List.nil_append] at hnumbers howned hsizes
  -- the batch is the next one in order
  have hmem : b.batchNumber ∈ List.range' ps.length (ds.length - ps.length) := by
    rw [← hnumbers]
    exact List.mem_cons_self ..
  rw [List.mem_range'_1] at hmem
  obtain ⟨ws, hws⟩ : ∃ ws, ds[b.batchNumber]? = some ws := by
    exact ⟨_, List.getElem?_eq_getElem (by omega)⟩
  have hloaded := h.queue.loaded b (List.mem_cons_self ..) ws hws
  have hother : ∀ c, c ≠ b.shadowEntries →
      ({ m with texasWorkEntriesQueue := rest }.startBatch cfg b).memory c = m.memory c := by
    intro c hc
    exact Function.update_of_ne hc ..
  have hrun := h.worker.resting hbatches
  refine ⟨⟨h.producer.division, h.producer.number, h.producer.fits, h.producer.filled,
      h.producer.slotStart, ?_, h.producer.waiting, h.producer.reported⟩,
    ⟨?_, hnumbers, hsizes, ?_, howned, fun hs => by cases hs⟩,
    ⟨h.worker.done, (fun hne => by cases hne), ?_⟩⟩
  · intro buffer hphase hbuf
    rw [hother buffer (h.queue.ne_held hphase hbuf
      (List.mem_append_right _ (List.mem_cons_self ..))).symm]
    exact h.producer.current buffer hphase hbuf
  · have hq := h.queue.queue
    rw [hqueue, hidle] at hq
    exact (List.cons.inj hq).2
  · intro c hc ws' hws'
    have hne : c.shadowEntries ≠ b.shadowEntries := by
      intro heq
      have hall := howned.nodup_iff.mpr List.nodup_range
      have hnodup := (List.nodup_append.mp (List.nodup_append.mp hall).1).2.1
      apply (List.nodup_cons.mp hnodup).1
      rw [← heq]
      exact List.mem_map_of_mem hc
    rw [Threads.entries_congr (hother _ hne)]
    exact h.queue.loaded c (List.mem_cons_of_mem _ hc) ws' hws'
  · intro c i hc
    injection hc with hb hi
    subst hb hi
    refine ⟨ws, m.entries b, hws, hloaded, Nat.zero_le _, ?_, ?_, ?_⟩
    · show (List.range b.numEntries).map (Function.update m.memory b.shadowEntries _ _) = _
      rw [Function.update_self, ← hrun.1]
      have hlen : (cleanBatch cfg.env m.rt (m.entries b)).2.length = b.numEntries := by
        rw [length_cleanBatch]
        simp [Threads.entries]
      apply List.ext_getElem
      · simp [hlen]
      · intro i h₁ h₂
        simp only [List.getElem_map, List.getElem_range]
        show ((cleanBatch cfg.env m.rt (m.entries b)).2[i]?).getD _ = _
        rw [List.getElem?_eq_getElem h₂]
        rfl
    · rw [← hrun.1]
      rfl
    · rw [← hrun.2]
      exact (List.append_nil _).symm

/-- Visiting a slot. -/
theorem ThreadsInv.visit (h : ThreadsInv cfg evs m ps ds cur qbs) {b : ShadowBatch} {i : Nat}
    (hworker : m.worker = .processing b i) (hi : i ≤ b.numEntries) :
    ThreadsInv cfg evs
      { m with
        rt := processEntry cfg.env m.rt (m.slot cfg b i)
        visited := m.visited ++ [(⟨b.batchNumber, i⟩, m.slot cfg b i)]
        worker := .processing b (i + 1) }
      ps ds cur qbs := by
  obtain ⟨ws, es, hws, hes, -, hclean, hrt, hvisited⟩ := h.worker.processing b i hworker
  have hq := h.queue
  have hbatches : m.worker.batches = [b] := by
    rw [hworker]
    rfl
  refine ⟨⟨h.producer.division, h.producer.number, h.producer.fits, h.producer.filled,
      h.producer.slotStart, h.producer.current, h.producer.waiting, h.producer.reported⟩,
    ⟨?_, ?_, ?_, hq.loaded, ?_, fun hs => by cases hs⟩,
    ⟨h.worker.done, (fun hne => by cases hne), ?_⟩⟩
  · have hqueue := hq.queue
    rw [hworker] at hqueue
    exact hqueue
  · rw [← hq.numbers, hbatches]
    rfl
  · have hsizes := hq.sizes
    rw [hbatches] at hsizes
    exact hsizes
  · have howned := hq.owned
    rw [hbatches] at howned
    exact howned
  · intro c j hc
    injection hc with hb hj
    subst hb hj
    refine ⟨ws, es, hws, hes, Nat.succ_le_succ hi, hclean, ?_, ?_⟩
    · rw [List.range_succ, List.map_append, processEntries_append]
      show processEntry cfg.env m.rt _ = _
      rw [hrt]
      rfl
    · rw [List.range_succ, List.map_append, ← List.append_assoc]
      show m.visited ++ _ = _
      rw [hvisited]
      rfl

/-- Returning the buffer of a batch that was visited up to and including
the slot past its end. -/
theorem ThreadsInv.giveBack (h : ThreadsInv cfg evs m ps ds cur qbs) {b : ShadowBatch} {i : Nat}
    (hworker : m.worker = .processing b i) (hi : ¬ i ≤ b.numEntries) :
    ∃ batch, ThreadsInv cfg evs
      { m with
        texasReadyBatchEntriesQueue := m.texasReadyBatchEntriesQueue ++ [b.shadowEntries]
        worker := .idle }
      (ps ++ [batch]) ds cur qbs := by
  obtain ⟨ws, es, hws, hes, hle, hclean, hrt, hvisited⟩ := h.worker.processing b i hworker
  have hend : i = b.numEntries + 1 := by omega
  have hq := h.queue
  have hbatches : m.worker.batches = [b] := by
    rw [hworker]
    rfl
  have hsize : b.numEntries = ws.length := by
    refine hq.sizes b ?_ ws hws
    rw [hbatches]
    exact List.mem_append_left _ (List.mem_singleton.mpr rfl)
  have hnumbers := hq.numbers
  rw [hbatches] at hnumbers
  have hlt : ps.length < ds.length := by
    rcases Nat.lt_or_ge ps.length ds.length with hlt | hge
    · exact hlt
    · rw [Nat.sub_eq_zero_of_le hge] at hnumbers
      cases hnumbers
  obtain ⟨k, hk⟩ : ∃ k, ds.length - ps.length = k + 1 := ⟨ds.length - ps.length - 1, by omega⟩
  rw [hk, List.range'_succ] at hnumbers
  injection hnumbers with hfirst hrest
  -- what was visited is the cleaned batch and the slot past its end
  have hall : (List.range i).map (m.slot cfg b)
      = (cleanBatch cfg.env (runBatches cfg.env texasInit ps) es).2
        ++ [m.slot cfg b b.numEntries] := by
    have hfits : ws.length ≤ cfg.window :=
      h.producer.fits ws (List.mem_append_left _ (List.mem_of_getElem? hws))
    rw [hend, List.range_succ, List.map_append, ← hclean]
    congr 1
    apply List.map_congr_left
    intro j hj
    have hjlt := List.mem_range.mp hj
    unfold Threads.slot
    rw [if_pos (by omega)]
  have hserial : serialProcessShadowBatch cfg.env (runBatches cfg.env texasInit ps)
      ⟨es, m.slot cfg b b.numEntries⟩ = m.rt := by
    rw [hrt, hall]
    rfl
  refine ⟨⟨es, m.slot cfg b b.numEntries⟩, ⟨h.producer.division, h.producer.number,
      h.producer.fits, h.producer.filled, h.producer.slotStart, h.producer.current,
      h.producer.waiting, h.producer.reported⟩,
    ⟨?_, ?_, ?_, hq.loaded, ?_, fun hs => by cases hs⟩,
    ⟨?_, fun _ => ⟨?_, ?_⟩, fun c j hc => by cases hc⟩⟩
  · have hqueue := hq.queue
    rw [hworker] at hqueue
    exact hqueue
  · show qbs.map ShadowBatch.batchNumber = List.range' (ps ++ [_]).length _
    rw [List.length_append, List.length_singleton]
    have hsub : ds.length - (ps.length + 1) = k := by omega
    rw [hsub]
    exact hrest
  · intro c hc
    exact hq.sizes c (List.mem_append_right _ hc)
  · -- the buffer moves from the worker to the end of the ready queue
    have howned := hq.owned
    rw [hbatches] at howned
    show (m.held ++ qbs.map ShadowBatch.shadowEntries
      ++ (m.texasReadyBatchEntriesQueue ++ [b.shadowEntries])).Perm _
    rw [← List.append_assoc]
    apply List.perm_middle.trans
    rw [List.append_nil]
    rw [List.append_assoc] at howned ⊢
    exact List.perm_middle.symm.trans howned
  · have hnext : ds[ps.length]? = some ws := by
      rw [← hfirst]
      exact hws
    rw [List.length_append, List.length_singleton, List.take_add_one, hnext]
    apply List.rel_append h.worker.done
    exact List.Forall₂.cons hes List.Forall₂.nil
  · rw [runBatches_append]
    exact hserial.symm
  · show m.visited = _
    rw [hvisited, visitLog_concat, ← hall, visits_range, Nat.zero_add, ← hfirst]

/-- Pushing the kill batch. -/
theorem ThreadsInv.kill (h : ThreadsInv cfg evs m ps ds cur qbs) (hphase : m.phase = .reported) :
    ThreadsInv cfg evs
      { m with
        phase := .killed
        texasWorkEntriesQueue := m.texasWorkEntriesQueue ++ [.killBatch] }
      ps ds cur qbs := by
  have hp := h.producer
  have hq := h.queue
  have hstopped : m.worker ≠ .stopped := by
    intro hs
    have hbad := (hq.stopped hs).2
    rw [hphase] at hbad
    cases hbad
  have hrunning : m.worker.running = true := by
    cases hw : m.worker with
    | idle => rfl
    | processing b i => rfl
    | stopped => exact absurd hw hstopped
  refine ⟨⟨?_, hp.number, hp.fits, hp.filled, (fun hc => by cases hc),
      (fun _ hc => by cases hc), fun hn => absurd (hp.waiting hn).2 (by rw [hphase]; simp), fun _ => hp.reported (by rw [hphase]; simp)⟩,
    ⟨?_, hq.numbers, hq.sizes, hq.loaded, ?_, fun hs => absurd hs hstopped⟩,
    h.worker.frame rfl rfl rfl fun _ _ => rfl⟩
  · have hdiv := hp.division
    rw [hphase] at hdiv
    exact hdiv
  · show m.texasWorkEntriesQueue ++ [.killBatch] = _
    rw [hq.queue, if_neg (fun hk => by rw [hphase] at hk; cases hk.1), List.append_nil,
      if_pos ⟨rfl, hrunning⟩]
  · have howned := hq.owned
    unfold Threads.held at howned ⊢
    rw [hphase] at howned
    exact howned

/-- Popping the kill batch: it is the last one. -/
theorem ThreadsInv.stop (h : ThreadsInv cfg evs m ps ds cur qbs) (hidle : m.worker = .idle)
    {rest : List Work} (hqueue : m.texasWorkEntriesQueue = .killBatch :: rest) :
    ThreadsInv cfg evs { m with texasWorkEntriesQueue := rest, worker := .stopped }
      ps ds cur qbs := by
  have hq := h.queue
  have hlist := hq.queue
  rw [hqueue, hidle] at hlist
  have hbatches : m.worker.batches = [] := by
    rw [hidle]
    rfl
  have hempty : qbs = [] := by
    cases qbs with
    | nil => rfl
    | cons b qbs => injection hlist with hbad _; cases hbad
  subst hempty
  have hkilled : m.phase = .killed := by
    by_contra hne
    rw [if_neg (fun hk => hne hk.1)] at hlist
    cases hlist
  rw [if_pos ⟨hkilled, rfl⟩] at hlist
  injection hlist with _ hrest
  refine ⟨⟨h.producer.division, h.producer.number, h.producer.fits, h.producer.filled,
      h.producer.slotStart, h.producer.current, h.producer.waiting, h.producer.reported⟩,
    ⟨?_, ?_, ?_, (fun b hb => by cases hb), ?_, fun _ => ⟨rfl, hkilled⟩⟩,
    ⟨h.worker.done, fun _ => h.worker.resting hbatches, fun b i hb => by cases hb⟩⟩
  · rw [if_neg (fun hk => by cases hk.2)]
    exact hrest
  · have hnumbers := hq.numbers
    rw [hbatches] at hnumbers
    exact hnumbers
  · intro b hb
    cases hb
  · have howned := hq.owned
    rw [hbatches] at howned
    exact howned

/-- What `batchFull` and `ReportStatistics` do with the current buffer,
in both modes: with one thread the batch is started at once. -/
theorem ThreadsInv.handOver (h : ThreadsInv cfg evs m ps ds cur qbs)
    (hphase : m.phase = .calling) {buffer : BufferId} (hbuf : m.texasWorkEntries = some buffer)
    (hserial : cfg.serial = true → m.worker = .idle ∧ m.texasWorkEntriesQueue = [])
    {n : Nat} (hn : n = cur.length)
    {evs' : List Event} {phase : Phase} {start : Nat} {next : Option BufferId}
    (hdiv : divide cfg.window cur m.events
      = cur :: if phase = .calling then divide cfg.window [] evs' else [])
    (hnext : phase = .calling → start = 0 ∧ next = none)
    (hwait : next = none → phase = .calling) (hkilled : phase ≠ .killed) :
    ∃ qbs', ThreadsInv cfg evs
      { m.handOver cfg buffer n with
        events := evs'
        phase := phase
        slotStart := start
        texasWorkEntries := next }
      ps (ds ++ [cur]) [] qbs' := by
  have hpush := h.push hphase hbuf hdiv hnext hwait hkilled
  unfold Threads.handOver
  rw [hn]
  dsimp only
  cases hs : cfg.serial with
  | false => exact ⟨_, hpush⟩
  | true =>
      obtain ⟨hidle, hempty⟩ := hserial hs
      have hqbs : qbs = [] := by
        have hlist := h.queue.queue
        rw [hempty] at hlist
        exact List.map_eq_nil_iff.mp (List.append_eq_nil_iff.mp hlist.symm).1
      subst hqbs
      rw [hempty] at hpush
      have hstart := hpush.start hidle rfl
      rw [← hempty] at hstart
      exact ⟨[], hstart⟩

/-- `batchFull` hands over and leaves the rest to the caller. -/
theorem Threads.batchFull_eq (m : Threads) (evs' : List Event) (buffer : BufferId)
    (capacityFill : Bool) :
    { m with events := evs' }.batchFull cfg buffer capacityFill
      = { m.handOver cfg buffer (if capacityFill then cfg.window else m.slotStart) with
          events := evs', phase := m.phase, slotStart := 0, texasWorkEntries := none } := by
  unfold Threads.batchFull Threads.handOver
  dsimp only
  cases cfg.serial with
  | false => rfl
  | true => rfl

theorem Threads.report_eq (m : Threads) (buffer : BufferId) :
    { m.handOver cfg buffer m.slotStart with phase := .reported }
      = { m.handOver cfg buffer m.slotStart with
          events := m.events
          phase := .reported
          slotStart := m.slotStart
          texasWorkEntries := m.texasWorkEntries } := by
  unfold Threads.handOver
  dsimp only
  cases cfg.serial with
  | false => rfl
  | true => rfl

/-- One turn of the producer. -/
theorem ThreadsInv.producerStep (h : ThreadsInv cfg evs m ps ds cur qbs) (hW : 1 ≤ cfg.window)
    (hserial : cfg.serial = true → m.texasWorkEntriesQueue = []) {m' : Threads}
    (hstep : m.producerStep cfg = some m') :
    ∃ ds' cur' qbs', ThreadsInv cfg evs m' ps ds' cur' qbs' := by
  obtain ⟨hfree, hmove⟩ := Threads.producerStep_move hstep
  have hready : cfg.serial = true → m.worker = .idle ∧ m.texasWorkEntriesQueue = [] := fun hs =>
    ⟨hfree hs, hserial hs⟩
  cases hmove with
  | takeBuffer hbuf hq => exact ⟨ds, cur, qbs, h.takeBuffer hbuf hq⟩
  | full hbuf hphase hevs hfull =>
      have hstart := h.producer.slotStart hphase
      have hfits := h.producer.fits cur (List.mem_append_right _ (List.mem_singleton.mpr rfl))
      have hdiv : divide cfg.window cur m.events
          = cur :: if m.phase = .calling then divide cfg.window [] m.events else [] := by
        rw [if_pos hphase, hevs, divide, if_pos (by omega), divide,
          if_neg (by simp only [List.length_nil]; omega)]
        rfl
      have hsize : cfg.window = cur.length := by omega
      obtain ⟨qbs', h'⟩ := h.handOver hphase hbuf hready hsize hdiv
        (fun _ => ⟨rfl, rfl⟩) (fun _ => hphase) (by rw [hphase]; simp)
      rw [Threads.batchFull_eq m m.events]
      exact ⟨_, _, qbs', h'⟩
  | fill hbuf hphase hevs hroom =>
      have hstart := h.producer.slotStart hphase
      exact ⟨ds, cur ++ [_], qbs, h.fill hphase hbuf hevs (by omega)⟩
  | @flush buffer evs' hbuf hphase hevs =>
      have hdiv : divide cfg.window cur m.events
          = cur :: if m.phase = .calling then divide cfg.window [] evs' else [] := by
        rw [if_pos hphase, hevs, divide]
      obtain ⟨qbs', h'⟩ := h.handOver hphase hbuf hready (h.producer.slotStart hphase) hdiv
        (fun _ => ⟨rfl, rfl⟩) (fun _ => hphase) (by rw [hphase]; simp)
      rw [Threads.batchFull_eq]
      exact ⟨_, _, qbs', h'⟩
  | report hbuf hphase hevs =>
      have hdiv : divide cfg.window cur m.events
          = cur :: if Phase.reported = .calling then divide cfg.window [] m.events else [] := by
        rw [if_neg (by simp), hevs, divide]
      have hheld : m.texasWorkEntries = none → Phase.reported = .calling := by
        intro hn
        rw [hbuf] at hn
        cases hn
      obtain ⟨qbs', h'⟩ := h.handOver hphase hbuf hready (h.producer.slotStart hphase) hdiv
        (fun hc => by cases hc) hheld (by simp)
      rw [Threads.report_eq]
      exact ⟨_, _, qbs', h'⟩
  | kill hphase _ => exact ⟨ds, cur, qbs, h.kill hphase⟩

/-- One turn of the worker. -/
theorem ThreadsInv.workerStep (h : ThreadsInv cfg evs m ps ds cur qbs) {m' : Threads}
    (hstep : m.workerStep cfg = some m') :
    ∃ ps' qbs', ThreadsInv cfg evs m' ps' ds cur qbs' := by
  cases Threads.workerStep_move hstep with
  | stop hidle hq => exact ⟨ps, qbs, h.stop hidle hq⟩
  | start hidle hq =>
      have hlist := h.queue.queue
      rw [hq] at hlist
      cases qbs with
      | nil =>
          exfalso
          split at hlist
          · cases hlist
          · cases hlist
      | cons c qbs =>
          injection hlist with hc _
          injection hc with hc
          subst hc
          exact ⟨ps, qbs, h.start hidle hq⟩
  | visit hworker hi => exact ⟨ps, qbs, h.visit hworker hi⟩
  | giveBack hworker hi =>
      obtain ⟨batch, h'⟩ := h.giveBack hworker hi
      exact ⟨ps ++ [batch], qbs, h'⟩

end Steps

-- ================================================================= runs

/-- With one thread nothing is queued, and no kill batch is pushed. -/
def Threads.Alone (m : Threads) : Prop := m.texasWorkEntriesQueue = [] ∧ m.phase ≠ .killed

theorem Threads.Alone.handOver {cfg : Config} {m : Threads} (hs : cfg.serial = true)
    (h : m.Alone) (buffer : BufferId) (n : Nat) : (m.handOver cfg buffer n).Alone := by
  unfold Threads.handOver
  rw [hs]
  exact h

theorem Threads.Alone.producerStep {cfg : Config} {m m' : Threads} (hs : cfg.serial = true)
    (h : m.Alone) (hstep : m.producerStep cfg = some m') : m'.Alone := by
  obtain ⟨-, hmove⟩ := Threads.producerStep_move hstep
  cases hmove with
  | takeBuffer _ _ => exact h
  | full _ _ _ _ => exact h.handOver hs _ _
  | fill _ _ _ _ => exact h
  | @flush buffer evs' _ _ _ => exact @Threads.Alone.handOver cfg { m with events := evs' } hs h _ _
  | report _ _ _ => exact ⟨(h.handOver hs _ _).1, by simp⟩
  | kill _ hserial => exact absurd hs hserial

theorem Threads.Alone.workerStep {cfg : Config} {m m' : Threads} (h : m.Alone)
    (hstep : m.workerStep cfg = some m') : m'.Alone := by
  cases Threads.workerStep_move hstep with
  | stop _ hq =>
      rw [h.1] at hq
      cases hq
  | start _ hq =>
      rw [h.1] at hq
      cases hq
  | visit _ _ => exact h
  | giveBack _ _ => exact h

/-- What every interleaving keeps. -/
def Threads.Sound (cfg : Config) (evs : List Event) (m : Threads) : Prop :=
  (∃ ps ds cur qbs, ThreadsInv cfg evs m ps ds cur qbs) ∧ (cfg.serial = true → m.Alone)

theorem Threads.Sound.step {cfg : Config} {evs : List Event} {m m' : Threads}
    (hW : 1 ≤ cfg.window) (h : m.Sound cfg evs) {t : Turn} (hstep : m.step cfg t = some m') :
    m'.Sound cfg evs := by
  obtain ⟨⟨ps, ds, cur, qbs, hinv⟩, hserial⟩ := h
  cases t with
  | producer =>
      obtain ⟨ds', cur', qbs', hinv'⟩ :=
        hinv.producerStep hW (fun hs => (hserial hs).1) hstep
      exact ⟨⟨ps, ds', cur', qbs', hinv'⟩, fun hs => (hserial hs).producerStep hs hstep⟩
  | worker =>
      obtain ⟨ps', qbs', hinv'⟩ := hinv.workerStep hstep
      exact ⟨⟨ps', ds, cur, qbs', hinv'⟩, fun hs => (hserial hs).workerStep hstep⟩

theorem Threads.Sound.turn {cfg : Config} {evs : List Event} {m : Threads}
    (hW : 1 ≤ cfg.window) (h : m.Sound cfg evs) (t : Turn) : (m.turn cfg t).Sound cfg evs := by
  unfold Threads.turn
  cases hstep : m.step cfg t with
  | none => exact h
  | some m' => exact h.step hW hstep

theorem Threads.Sound.run {cfg : Config} {evs : List Event} (hW : 1 ≤ cfg.window)
    (schedule : List Turn) :
    ∀ {m : Threads}, m.Sound cfg evs → (m.run cfg schedule).Sound cfg evs := by
  induction schedule with
  | nil => intro m h; exact h
  | cons t schedule ih => intro m h; exact ih (h.turn hW t)

theorem Threads.sound_init (cfg : Config) (memory : BufferId → Nat → ShadowEntry)
    (evs : List Event) : (Threads.init memory evs).Sound cfg evs :=
  ⟨⟨[], [], [], [], threadsInv_init cfg memory evs⟩, fun _ => ⟨rfl, by simp [Threads.init]⟩⟩

/-- What a finished run has done: it is the serial pipeline on the
batches the window divides the events into. -/
structure Threads.Outcome (cfg : Config) (evs : List Event) (m : Threads)
    (bs : List Batch) : Prop where
  loaded : List.Forall₂ (fun ws b => Loaded ws b.entries) (divide cfg.window [] evs) bs
  rt : m.rt = runBatches cfg.env texasInit bs
  visited : m.visited = visitLog cfg.env texasInit 0 bs
  filled : m.filled = slotRefs 0 ((divide cfg.window [] evs).map List.length)

theorem Threads.Sound.finished {cfg : Config} {evs : List Event} {m : Threads}
    (h : m.Sound cfg evs) (hfin : m.Finished cfg) : ∃ bs, m.Outcome cfg evs bs := by
  obtain ⟨⟨ps, ds, cur, qbs, hinv⟩, hserial⟩ := h
  -- the program is in the report, the worker rests, the queue is empty
  obtain ⟨hphase, hrest, hqbs⟩ : m.phase ≠ .calling ∧ m.worker.batches = [] ∧ qbs = [] := by
    rcases hfin with ⟨hs, hphase, hworker⟩ | ⟨hs, hphase, hworker⟩
    · refine ⟨by rw [hphase]; simp, by rw [hworker]; rfl, ?_⟩
      have hlist := hinv.queue.queue
      rw [(hserial hs).1] at hlist
      exact List.map_eq_nil_iff.mp (List.append_eq_nil_iff.mp hlist.symm).1
    · exact ⟨by rw [hphase]; simp, by rw [hworker]; rfl, (hinv.queue.stopped hworker).1⟩
  have hcur := hinv.producer.reported hphase
  subst hqbs hcur
  have hdiv := hinv.producer.division
  rw [if_neg hphase, List.append_nil] at hdiv
  have hlen : ps.length = ds.length := by
    have hnumbers := hinv.queue.numbers
    have hle := hinv.worker.length_le
    rw [hrest] at hnumbers
    have hzero := congrArg List.length hnumbers
    rw [List.length_range'] at hzero
    have hsub : 0 = ds.length - ps.length := hzero
    omega
  obtain ⟨hrt, hvisited⟩ := hinv.worker.resting hrest
  refine ⟨ps, ?_, hrt, hvisited, ?_⟩
  · have hdone := hinv.worker.done
    rw [hlen, List.take_length] at hdone
    rw [hdiv]
    exact hdone
  · rw [hinv.producer.filled, hdiv, List.map_append]
    exact slotRefs_zero _

/-- Every finished run, under any interleaving. -/
theorem outcome_run (cfg : Config) (hW : 1 ≤ cfg.window)
    (memory : BufferId → Nat → ShadowEntry) (evs : List Event) (schedule : List Turn)
    (hfin : ((Threads.init memory evs).run cfg schedule).Finished cfg) :
    ∃ bs, ((Threads.init memory evs).run cfg schedule).Outcome cfg evs bs :=
  ((Threads.sound_init cfg memory evs).run hW schedule).finished hfin

-- ======================================================== exactly once?

/-- One more slot in every batch. -/
theorem length_slotRefs_succ (ns : List Nat) :
    ∀ k, (slotRefs k (ns.map (· + 1))).length = (slotRefs k ns).length + ns.length := by
  induction ns with
  | nil => intro k; rfl
  | cons n ns ih =>
      intro k
      simp only [List.map_cons, slotRefs, List.length_append, List.length_map, List.length_range,
        ih, List.length_cons]
      omega

theorem divide_ne_nil (window : Nat) (evs : List Event) :
    ∀ cur, divide window cur evs ≠ [] := by
  induction evs with
  | nil => intro cur h; cases h
  | cons ev evs ih =>
      intro cur
      cases ev with
      | flush => intro h; cases h
      | write w =>
          rw [divide]
          split
          · intro h
            cases h
          · exact ih _

/-- The events of a program. -/
def programEvents (cfg : Config) (calls : List Call) : List Event :=
  (Producer.init.calls cfg.env.options.trackCycles calls).2

/-- In every finished run the filled slots are visited once each and in
push order, and in every batch one more slot is visited after them: the
one at index `numEntries`. So the slots visited are never exactly the
slots filled. -/
theorem visited_ne_filled (cfg : Config) (hW : 1 ≤ cfg.window)
    (memory : BufferId → Nat → ShadowEntry) (calls : List Call) (schedule : List Turn)
    (hfin : ((Threads.init memory (programEvents cfg calls)).run cfg schedule).Finished cfg) :
    let m := (Threads.init memory (programEvents cfg calls)).run cfg schedule
    let sizes := (divide cfg.window [] (programEvents cfg calls)).map List.length
    m.filled = slotRefs 0 sizes
      ∧ m.visited.map Prod.fst = slotRefs 0 (sizes.map (· + 1))
      ∧ m.visited.map Prod.fst ≠ m.filled := by
  intro m sizes
  obtain ⟨bs, hout⟩ := outcome_run cfg hW memory (programEvents cfg calls) schedule hfin
  have hsizes : bs.map (fun b => b.entries.length + 1) = sizes.map (· + 1) := by
    show _ = ((divide cfg.window [] (programEvents cfg calls)).map List.length).map (· + 1)
    rw [← lengths_of_loaded hout.loaded, List.map_map]
    rfl
  have hvisited : m.visited.map Prod.fst = slotRefs 0 (sizes.map (· + 1)) := by
    rw [hout.visited, visitLog_refs, hsizes]
  refine ⟨hout.filled, hvisited, ?_⟩
  intro heq
  rw [hvisited, hout.filled] at heq
  have hlen := congrArg List.length heq
  rw [length_slotRefs_succ] at hlen
  have hpos : 0 < sizes.length := by
    rw [List.length_map]
    exact List.length_pos_iff.mpr (divide_ne_nil _ _ _)
  have hlen' : (slotRefs 0 sizes).length + sizes.length = (slotRefs 0 sizes).length := hlen
  omega

/-- A program that makes no call: the report hands an empty batch over,
and the worker visits its slot 0. -/
theorem visited_ne_filled_noCall :
    let cfg : Config := ⟨Env.ofTree .flat, 1, fun _ => .redundant⟩
    let m := (Threads.init (fun _ _ => .redundant) (programEvents cfg [])).run cfg
      [.producer, .producer, .worker, .worker, .worker, .worker]
    m.Finished cfg ∧ m.filled = slotRefs 0 [0] ∧ m.visited.map Prod.fst = slotRefs 0 [1]
      ∧ m.visited.map Prod.fst ≠ m.filled := by
  intro cfg m
  have hfin : m.Finished cfg := by decide
  exact ⟨hfin, visited_ne_filled cfg (by decide) _ [] _ hfin⟩

/-- Slot 0 of batch 0 is executed although nobody filled it. -/
theorem visited_unfilled_slot :
    let cfg : Config := ⟨Env.ofTree .flat, 1, fun _ => .redundant⟩
    let m := (Threads.init (fun _ _ => .redundant) (programEvents cfg [])).run cfg
      [.producer, .producer, .worker, .worker, .worker, .worker]
    m.Finished cfg ∧ m.filled = [] ∧ m.visited.map Prod.fst = [⟨0, 0⟩] := by
  decide

end Carmot.Texas
