/-
When interning is exact.

The code tells two calls apart by what it compares: static id, number
of frames, xor of the frames, and the bytes `memcmp` is given, which
are the first `nptrs` BYTES of the buffers and not the first `nptrs`
frames (`callKey`). Over any sequence of calls the records are the
first calls of every key, numbered in order (`callstacksInv_run`), so
two calls return one id exactly when their keys agree, as long as the
64-bit counter has not come round.

Interning is therefore exact for a sequence precisely when no two of
its calls agree in the key and differ in the frames, and it has no more
keys than there are ids (`internExact_iff`).
-/
import Mathlib.Algebra.Group.Nat.Defs
import Mathlib.Data.Finset.Card
import Mathlib.Data.Finset.Dedup
import Carmot.Lib.Firsts
import Carmot.Wrapper.Callstack

namespace Carmot.Wrapper

open Carmot.Lib

/-- A call: the static id and the trace. -/
abbrev SaveCall := UInt64 × Trace

/-- What the code compares of a call. -/
def callKey (c : SaveCall) : UInt64 × Nat × UInt64 × List UInt8 :=
  (c.1, c.2.nptrs, c.2.hashPart1, c.2.compared)

-- ============================================================ the records

/-- The records of a list of first calls, numbered from 1. -/
def records (fs : List SaveCall) : List DynamicTrace :=
  fs.mapIdx fun i c => ⟨c.2, c.1, UInt64.ofNat (i + 1)⟩

/-- The bucket of a record. -/
def bucketOf (cs : Callstacks) (dynamicID : UInt64) (nptrs : Nat) : List DynamicTrace :=
  (((cs.traces dynamicID).getD fun _ => none) nptrs).getD []

theorem records_concat (fs : List SaveCall) (c : SaveCall) :
    records (fs ++ [c]) = records fs ++ [⟨c.2, c.1, UInt64.ofNat (fs.length + 1)⟩] := by
  unfold records
  rw [List.mapIdx_concat]

theorem length_records (fs : List SaveCall) : (records fs).length = fs.length :=
  List.length_mapIdx ..

section Steps

variable {uint64Hash : UInt64 → UInt64}

/-- The three ways to a new record are one: the bucket holds no record
of the trace. -/
theorem saveCallstack_eq (cs : Callstacks) (staticID : UInt64) (trace : Trace) :
    saveCallstack uint64Hash cs staticID (some trace)
      = match (bucketOf cs (myHashPart2 uint64Hash trace.hashPart1 staticID) trace.nptrs).find?
          fun elem => elem.sameTrace trace with
        | none => incrementPushReturn cs trace staticID
            (myHashPart2 uint64Hash trace.hashPart1 staticID)
        | some existingTrace => (cs, existingTrace.uniqueID) := by
  unfold saveCallstack bucketOf
  dsimp only
  cases hd : cs.traces (myHashPart2 uint64Hash trace.hashPart1 staticID) with
  | none => rfl
  | some byNptrs =>
      cases hn : byNptrs trace.nptrs with
      | none => simp only [Option.getD_some, hn]; rfl
      | some bucket =>
          cases hf : bucket.find? fun elem => elem.sameTrace trace with
          | none => simp only [Option.getD_some, hn, hf]
          | some existingTrace => simp only [Option.getD_some, hn, hf]

/-- The globals after some calls: the first calls of every key are the
records, in their buckets and under their ids. -/
structure CallstacksInv (uint64Hash : UInt64 → UInt64) (calls : List SaveCall)
    (cs : Callstacks) : Prop where
  globalID : cs.globalID = UInt64.ofNat ((firsts callKey calls).length + 1)
  bucket : ∀ d n, bucketOf cs d n
    = (records (firsts callKey calls)).filter fun r =>
      decide (myHashPart2 uint64Hash r.trace.hashPart1 r.staticID = d ∧ r.trace.nptrs = n)
  dynamic : ∀ u, cs.dynamicTraces u
    = (records (firsts callKey calls)).reverse.find? fun r => decide (r.uniqueID = u)

theorem callstacksInv_init : CallstacksInv uint64Hash [] Callstacks.init := ⟨rfl, fun _ _ => rfl, fun _ => rfl⟩

/-- A record in the bucket of a call with the same trace has the key of
the call: equal hashes leave no room for different static ids. -/
theorem sameTrace_iff (hinj : Function.Injective uint64Hash) (r : DynamicTrace) (c : SaveCall) :
    (myHashPart2 uint64Hash r.trace.hashPart1 r.staticID
        = myHashPart2 uint64Hash c.2.hashPart1 c.1 ∧ r.trace.nptrs = c.2.nptrs)
      ∧ r.sameTrace c.2 = true
    ↔ callKey (r.staticID, r.trace) = callKey c := by
  unfold DynamicTrace.sameTrace callKey memcmpEqual myHashPart2 Stack.compared
  simp only [Bool.and_eq_true, beq_iff_eq, Prod.mk.injEq]
  constructor
  · intro h
    obtain ⟨⟨hd, hn⟩, hh, hb⟩ := h
    rw [hh] at hd
    refine ⟨hinj ((UInt64.xor_right_inj _).mp hd), hn, hh, ?_⟩
    rw [hn, hb]
  · intro h
    obtain ⟨hs, hn, hh, hb⟩ := h
    refine ⟨⟨by rw [hh, hs], hn⟩, hh, ?_⟩
    rw [← hb, hn]

/-- The search of a bucket is a search of all records for the key. -/
theorem CallstacksInv.find (hinj : Function.Injective uint64Hash) {calls : List SaveCall}
    {cs : Callstacks} (h : CallstacksInv uint64Hash calls cs) (c : SaveCall) :
    (bucketOf cs (myHashPart2 uint64Hash c.2.hashPart1 c.1) c.2.nptrs).find?
        (fun r => r.sameTrace c.2)
      = (records (firsts callKey calls)).find?
        fun r => decide (callKey (r.staticID, r.trace) = callKey c) := by
  rw [h.bucket, List.find?_filter]
  congr 1
  funext r
  simp only [decide_eq_true_eq]
  exact decide_eq_decide.mpr (sameTrace_iff hinj r c)

/-- A record is found under the position of its key. -/
theorem find?_records {fs : List SaveCall} {c : SaveCall} {r : DynamicTrace}
    (h : (records fs).find? (fun r => decide (callKey (r.staticID, r.trace) = callKey c)) = some r) :
    r.uniqueID = UInt64.ofNat (fs.findIdx (fun b => callKey b = callKey c) + 1) := by
  obtain ⟨hr, i, hi, hget, hbefore⟩ := List.find?_eq_some_iff_getElem.mp h
  have hi' : i < fs.length := by
    rw [length_records] at hi
    exact hi
  have hat : ∀ j (hj : j < (records fs).length) (hj' : j < fs.length),
      (records fs)[j] = ⟨fs[j].2, fs[j].1, UInt64.ofNat (j + 1)⟩ := by
    intro j hj hj'
    simp only [records, List.getElem_mapIdx]
  have hidx : fs.findIdx (fun b => callKey b = callKey c) = i := by
    rw [List.findIdx_eq hi']
    constructor
    · rw [← hget, hat i hi hi'] at hr
      exact hr
    · intro j hj
      have hno := hbefore j hj
      rw [hat j (Nat.lt_trans hj hi) (Nat.lt_trans hj hi')] at hno
      simpa using hno
  rw [hidx, ← hget, hat i hi hi']

theorem find?_records_eq_none {fs : List SaveCall} {c : SaveCall} :
    (records fs).find? (fun r => decide (callKey (r.staticID, r.trace) = callKey c)) = none ↔
      fs.find? (fun b => callKey b = callKey c) = none := by
  have hmem : ∀ b : SaveCall, b ∈ fs ↔ ∃ r ∈ records fs, (r.staticID, r.trace) = b := by
    intro b
    constructor
    · intro hb
      obtain ⟨i, hi, rfl⟩ := List.getElem_of_mem hb
      refine ⟨⟨fs[i].2, fs[i].1, UInt64.ofNat (i + 1)⟩, ?_, rfl⟩
      exact List.mem_mapIdx.mpr ⟨i, hi, rfl⟩
    · intro h
      obtain ⟨r, hr, rfl⟩ := h
      obtain ⟨i, hi, rfl⟩ := List.mem_mapIdx.mp hr
      exact List.getElem_mem hi
  rw [List.find?_eq_none, List.find?_eq_none]
  constructor
  · intro h b hb
    obtain ⟨r, hr, rfl⟩ := (hmem b).mp hb
    exact h r hr
  · intro h r hr
    exact h (r.staticID, r.trace) ((hmem _).mpr ⟨r, hr, rfl⟩)

/-- Where a new record goes. -/
theorem bucketOf_push (cs : Callstacks) (trace : Trace) (staticID dynamicID d : UInt64) (n : Nat) :
    bucketOf (incrementPushReturn cs trace staticID dynamicID).1 d n
      = bucketOf cs d n
        ++ if dynamicID = d ∧ trace.nptrs = n then [⟨trace, staticID, cs.globalID⟩] else [] := by
  unfold bucketOf incrementPushReturn
  dsimp only
  by_cases hd : d = dynamicID
  · subst hd
    by_cases hn : n = trace.nptrs
    · subst hn
      simp
    · simp [hn, Ne.symm hn]
  · simp [hd, Ne.symm hd]

/-- A new key: the call becomes a record. -/
theorem CallstacksInv.push {calls : List SaveCall} {cs : Callstacks}
    (h : CallstacksInv uint64Hash calls cs) {c : SaveCall}
    (hnew : (firsts callKey calls).find? (fun b => callKey b = callKey c) = none) :
    CallstacksInv uint64Hash (calls ++ [c])
      (incrementPushReturn cs c.2 c.1 (myHashPart2 uint64Hash c.2.hashPart1 c.1)).1 := by
  have hgrow : firsts callKey (calls ++ [c]) = firsts callKey calls ++ [c] := by
    rw [firsts_concat, addFirst_of_none callKey hnew]
  have hrecords : records (firsts callKey (calls ++ [c]))
      = records (firsts callKey calls) ++ [⟨c.2, c.1, cs.globalID⟩] := by
    rw [hgrow, records_concat, h.globalID]
  refine ⟨?_, ?_, ?_⟩
  · show cs.globalID + 1 = _
    rw [h.globalID, hgrow, List.length_append]
    exact (UInt64.ofNat_add _ 1).symm
  · intro d n
    rw [bucketOf_push, h.bucket, hrecords, List.filter_append]
    congr 1
    rw [List.filter_singleton]
    by_cases hd : myHashPart2 uint64Hash c.2.hashPart1 c.1 = d ∧ c.2.nptrs = n
    · simp [hd]
    · simp [hd]
  · intro u
    show Function.update cs.dynamicTraces cs.globalID (some ⟨c.2, c.1, cs.globalID⟩) u = _
    rw [hrecords, List.reverse_append, List.reverse_singleton, List.singleton_append]
    by_cases hu : u = cs.globalID
    · subst hu
      simp
    · rw [Function.update_of_ne hu, h.dynamic,
        List.find?_cons_of_neg (by simpa using Ne.symm hu)]

/-- One call: its id is the position of its key, counted from 1. -/
theorem CallstacksInv.step (hinj : Function.Injective uint64Hash) {calls : List SaveCall}
    {cs : Callstacks} (h : CallstacksInv uint64Hash calls cs) (c : SaveCall) :
    CallstacksInv uint64Hash (calls ++ [c]) (saveCallstack uint64Hash cs c.1 (some c.2)).1
      ∧ (saveCallstack uint64Hash cs c.1 (some c.2)).2
        = UInt64.ofNat (rankOf callKey (calls ++ [c]) c + 1) := by
  rw [saveCallstack_eq, h.find hinj c]
  cases hfound : (records (firsts callKey calls)).find?
      fun r => decide (callKey (r.staticID, r.trace) = callKey c) with
  | none =>
      have hnew := find?_records_eq_none.mp hfound
      refine ⟨h.push hnew, ?_⟩
      rw [rankOf_of_new callKey hnew, ← h.globalID]
      rfl
  | some r =>
      obtain ⟨b, hb⟩ : ∃ b, (firsts callKey calls).find? (fun b => callKey b = callKey c)
          = some b := by
        rw [← Option.ne_none_iff_exists']
        intro hnone
        rw [find?_records_eq_none.mpr hnone] at hfound
        cases hfound
      have hsame : firsts callKey (calls ++ [c]) = firsts callKey calls := by
        rw [firsts_concat, addFirst_of_some callKey hb]
      refine ⟨⟨?_, ?_, ?_⟩, ?_⟩
      · rw [hsame]
        exact h.globalID
      · rw [hsame]
        exact h.bucket
      · rw [hsame]
        exact h.dynamic
      · unfold rankOf
        rw [hsame]
        exact find?_records hfound

theorem saveCallstacks_cons (cs : Callstacks) (c : SaveCall) (calls : List SaveCall) :
    saveCallstacks uint64Hash cs (c :: calls)
      = ((saveCallstacks uint64Hash (saveCallstack uint64Hash cs c.1 (some c.2)).1 calls).1,
        (saveCallstack uint64Hash cs c.1 (some c.2)).2
          :: (saveCallstacks uint64Hash (saveCallstack uint64Hash cs c.1 (some c.2)).1 calls).2) :=
  rfl

/-- The calls so far and the ids they returned. -/
theorem callstacksInv_run (hinj : Function.Injective uint64Hash) (calls : List SaveCall) :
    ∀ (done : List SaveCall) (cs : Callstacks), CallstacksInv uint64Hash done cs →
      CallstacksInv uint64Hash (done ++ calls) (saveCallstacks uint64Hash cs calls).1
        ∧ (saveCallstacks uint64Hash cs calls).2
          = calls.map fun c => UInt64.ofNat (rankOf callKey (done ++ calls) c + 1) := by
  induction calls with
  | nil =>
      intro done cs h
      rw [List.append_nil]
      exact ⟨h, rfl⟩
  | cons c calls ih =>
      intro done cs h
      obtain ⟨hinv, hid⟩ := h.step hinj c
      obtain ⟨hinv', hids⟩ := ih (done ++ [c]) _ hinv
      have happ : done ++ [c] ++ calls = done ++ c :: calls := by
        rw [List.append_assoc]
        rfl
      rw [happ] at hinv' hids
      rw [saveCallstacks_cons]
      refine ⟨hinv', ?_⟩
      dsimp only
      rw [hids, hid, List.map_cons, ← happ,
        rankOf_append callKey (List.mem_append_right done (List.mem_singleton_self c)) calls]

end Steps

-- ============================================================== exactness

/-- Interning a sequence of calls is exact: two calls return one id
exactly when they agree in the static id and the frames, and every id
leads back to the static id and the frames it was returned for. -/
def InternExact (uint64Hash : UInt64 → UInt64) (calls : List SaveCall) : Prop :=
  let answered := calls.zip (saveCallstacks uint64Hash Callstacks.init calls).2
  let cs := (saveCallstacks uint64Hash Callstacks.init calls).1
  (∀ p ∈ answered, ∀ q ∈ answered,
      p.2 = q.2 ↔ p.1.1 = q.1.1 ∧ p.1.2.nptrs = q.1.2.nptrs ∧ p.1.2.frames = q.1.2.frames)
    ∧ ∀ p ∈ answered, ∃ r, cs.dynamicTraces p.2 = some r
      ∧ r.staticID = p.1.1 ∧ r.trace.nptrs = p.1.2.nptrs ∧ r.trace.frames = p.1.2.frames

/-- Calls that agree in what is compared agree in their frames. -/
def FramesCompared (calls : List SaveCall) : Prop :=
  ∀ c ∈ calls, ∀ c' ∈ calls, callKey c = callKey c' → c.2.frames = c'.2.frames

instance (calls : List SaveCall) : Decidable (FramesCompared calls) :=
  inferInstanceAs (Decidable (∀ c ∈ calls, ∀ c' ∈ calls,
    callKey c = callKey c' → c.2.frames = c'.2.frames))

/-- Equal frames and static ids are compared equal. -/
theorem callKey_of_frames {c c' : SaveCall} (hs : c.1 = c'.1) (hf : c.2.frames = c'.2.frames) :
    callKey c = callKey c' := by
  obtain ⟨hn, hb⟩ := Stack.compared_of_frames hf
  unfold callKey
  rw [hs, hn, hb, c.2.hashPart1_eq, c'.2.hashPart1_eq, myHashPart1_of_frames hf]

theorem of_callKey {c c' : SaveCall} (h : callKey c = callKey c') :
    c.1 = c'.1 ∧ c.2.nptrs = c'.2.nptrs := by
  simp only [callKey, Prod.mk.injEq] at h
  exact ⟨h.1, h.2.1⟩

/-- The number of keys is the number of records. -/
theorem card_keys (calls : List SaveCall) :
    (calls.map callKey).toFinset.card = (firsts callKey calls).length := by
  rw [← List.length_map callKey, ← List.toFinset_card_of_nodup (nodup_firsts callKey calls)]
  congr 1
  ext k
  simp only [List.mem_toFinset, List.mem_map]
  constructor
  · intro h
    obtain ⟨c, hc, rfl⟩ := h
    exact exists_mem_firsts callKey hc
  · intro h
    obtain ⟨c, hc, rfl⟩ := h
    exact ⟨c, mem_of_mem_firsts callKey hc, rfl⟩

/-- Ids that come from small positions are told apart. -/
theorem ofNat_succ_inj {i j : Nat} (hi : i < 2 ^ 64) (hj : j < 2 ^ 64)
    (h : UInt64.ofNat (i + 1) = UInt64.ofNat (j + 1)) : i = j := by
  have hmod := congrArg UInt64.toNat h
  rw [UInt64.toNat_ofNat', UInt64.toNat_ofNat'] at hmod
  omega

/-- With no more keys than ids, an id stands for one key. -/
theorem id_eq_iff {calls : List SaveCall} (hfew : (firsts callKey calls).length ≤ 2 ^ 64)
    {c c' : SaveCall} (hc : c ∈ calls) (hc' : c' ∈ calls) :
    UInt64.ofNat (rankOf callKey calls c + 1) = UInt64.ofNat (rankOf callKey calls c' + 1) ↔
      callKey c = callKey c' := by
  have hlt : ∀ {c}, c ∈ calls → rankOf callKey calls c < 2 ^ 64 :=
    fun hc => Nat.lt_of_lt_of_le (rankOf_lt callKey hc) hfew
  rw [← rankOf_eq_iff callKey hc hc']
  constructor
  · exact ofNat_succ_inj (hlt hc) (hlt hc')
  · intro h
    rw [h]

/-- Then it leads back to the record of the key, and only to it. -/
theorem CallstacksInv.dynamic_id {uint64Hash : UInt64 → UInt64} {calls : List SaveCall}
    {cs : Callstacks} (h : CallstacksInv uint64Hash calls cs)
    (hfew : (firsts callKey calls).length ≤ 2 ^ 64) {c : SaveCall} (hc : c ∈ calls) :
    ∃ r c', c' ∈ calls ∧ cs.dynamicTraces (UInt64.ofNat (rankOf callKey calls c + 1)) = some r
      ∧ (r.staticID, r.trace) = c' ∧ callKey c' = callKey c := by
  have hrank := rankOf_lt callKey hc
  obtain ⟨r, hr⟩ : ∃ r, (records (firsts callKey calls)).reverse.find?
      (fun r => decide (r.uniqueID = UInt64.ofNat (rankOf callKey calls c + 1))) = some r := by
    rw [← Option.isSome_iff_exists, List.find?_isSome]
    refine ⟨_, List.mem_reverse.mpr (List.mem_mapIdx.mpr ⟨_, hrank, rfl⟩), ?_⟩
    exact decide_eq_true rfl
  have hid : r.uniqueID = UInt64.ofNat (rankOf callKey calls c + 1) := by
    simpa using List.find?_some hr
  obtain ⟨i, hi, hri⟩ := List.mem_mapIdx.mp (List.mem_reverse.mp (List.mem_of_find?_eq_some hr))
  rw [← hri] at hid
  have hii := ofNat_succ_inj (Nat.lt_of_lt_of_le hi hfew) (Nat.lt_of_lt_of_le hrank hfew) hid
  refine ⟨r, (firsts callKey calls)[i], mem_of_mem_firsts callKey (List.getElem_mem hi), ?_, ?_, ?_⟩
  · rw [h.dynamic]
    exact hr
  · rw [← hri]
  · subst hii
    exact key_getElem_rankOf callKey hrank

/-- Interning is exact for a sequence of calls precisely when no two of
them agree in what is compared and differ in the frames, and there are
no more keys than ids. -/
theorem internExact_iff (uint64Hash : UInt64 → UInt64) (hinj : Function.Injective uint64Hash)
    (calls : List (UInt64 × Trace)) :
    InternExact uint64Hash calls ↔
      FramesCompared calls ∧ (calls.map callKey).toFinset.card ≤ 2 ^ 64 := by
  obtain ⟨hinv, hids⟩ := callstacksInv_run hinj calls [] Callstacks.init callstacksInv_init
  rw [List.nil_append] at hinv hids
  have hzip : calls.zip (saveCallstacks uint64Hash Callstacks.init calls).2
      = calls.map fun c => (c, UInt64.ofNat (rankOf callKey calls c + 1)) := by
    rw [hids, List.map_prod_left_eq_zip]
  unfold InternExact
  dsimp only
  rw [hzip, card_keys]
  have hanswer : ∀ {c}, c ∈ calls → (c, UInt64.ofNat (rankOf callKey calls c + 1))
      ∈ calls.map fun c => (c, UInt64.ofNat (rankOf callKey calls c + 1)) :=
    fun hc => List.mem_map_of_mem hc
  constructor
  · intro h
    obtain ⟨hsame, -⟩ := h
    constructor
    · intro c hc c' hc' hkey
      have hid : rankOf callKey calls c = rankOf callKey calls c' :=
        (rankOf_eq_iff callKey hc hc').mpr hkey
      exact ((hsame _ (hanswer hc) _ (hanswer hc')).mp (by rw [hid])).2.2
    · -- otherwise the first record and the one 2^64 later share their id
      by_contra hmany
      have hfar : 2 ^ 64 < (firsts callKey calls).length := Nat.lt_of_not_le hmany
      have hnear : 0 < (firsts callKey calls).length := by omega
      have hc := mem_of_mem_firsts callKey (List.getElem_mem hnear)
      have hc' := mem_of_mem_firsts callKey (List.getElem_mem hfar)
      have heq := (hsame _ (hanswer hc) _ (hanswer hc')).mp (by
        rw [rankOf_getElem, rankOf_getElem]
        rfl)
      have hrank := (rankOf_eq_iff callKey hc hc').mpr (callKey_of_frames heq.1 heq.2.2)
      rw [rankOf_getElem, rankOf_getElem] at hrank
      omega
  · intro h
    obtain ⟨hcompared, hfew⟩ := h
    constructor
    · intro p hp q hq
      obtain ⟨c, hc, rfl⟩ := List.mem_map.mp hp
      obtain ⟨c', hc', rfl⟩ := List.mem_map.mp hq
      constructor
      · intro heq
        have hkey := (id_eq_iff hfew hc hc').mp heq
        exact ⟨(of_callKey hkey).1, (of_callKey hkey).2, hcompared c hc c' hc' hkey⟩
      · intro heq
        exact (id_eq_iff hfew hc hc').mpr (callKey_of_frames heq.1 heq.2.2)
    · intro p hp
      obtain ⟨c, hc, rfl⟩ := List.mem_map.mp hp
      obtain ⟨r, c', hc', hr, rfl, hkey⟩ := hinv.dynamic_id hfew hc
      exact ⟨r, hr, (of_callKey hkey).1, (of_callKey hkey).2, hcompared _ hc' c hc hkey⟩

/-- Two stacks with one frame more than a common start: told apart by
their hashes. -/
theorem internExact_iff_siblings :
    let s := Stack.ofFrames [0x401136, 0x401150] (by decide) (by decide)
    let t := Stack.ofFrames [0x401136, 0x40117a] (by decide) (by decide)
    let calls : List (UInt64 × Trace) := [(1, Trace.new s), (1, Trace.new t), (1, Trace.new s)]
    Function.Injective (id : UInt64 → UInt64) ∧ InternExact id calls := by
  intro s t calls
  refine ⟨Function.injective_id, (internExact_iff id Function.injective_id calls).mpr ⟨?_, ?_⟩⟩
  · decide +kernel
  · exact Nat.le_trans (List.toFinset_card_le _) (by decide)

/-- Two activations of a recursive function that differ in the order of
their return addresses share number, xor and first bytes: one id. -/
theorem not_internExact_permuted :
    let s := Stack.ofFrames [0x401136, 0x401150, 0x40117a] (by decide) (by decide)
    let t := Stack.ofFrames [0x401136, 0x40117a, 0x401150] (by decide) (by decide)
    let calls : List (UInt64 × Trace) := [(1, Trace.new s), (1, Trace.new t)]
    (saveCallstacks id Callstacks.init calls).2 = [1, 1] ∧ s.frames ≠ t.frames
      ∧ ¬ InternExact id calls := by
  intro s t calls
  have hids : (saveCallstacks id Callstacks.init calls).2 = [1, 1] := by decide +kernel
  have hne : s.frames ≠ t.frames := by decide +kernel
  refine ⟨hids, hne, ?_⟩
  intro h
  unfold InternExact at h
  rw [hids] at h
  have heq := h.1 ((1, Trace.new s), 1) (List.mem_cons_self ..)
    ((1, Trace.new t), 1) (List.mem_cons_of_mem _ (List.mem_cons_self ..))
  exact hne (heq.mp rfl).2.2

end Carmot.Wrapper
