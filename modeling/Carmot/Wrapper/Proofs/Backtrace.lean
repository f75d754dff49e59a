/-
When the caches return the stack that was captured.

What a call returns is an object that compares equal to the captured
stack, and every object holds the frames of some captured stack: this
is all that the three builds have in common (`ServesCaptured`), and it
is enough when stacks that compare equal have equal frames. It is also
necessary: the comparison covers `nptrs` bytes and not `nptrs` frames,
and a trace cache that is filled just up to the first of two different
stacks that compare equal answers the other one with it
(`cache_returns_first`).

So all builds, with all sizes, are faithful to a sequence of captured
stacks exactly when `traceCompare` tells its stacks apart
(`allFaithful_iff`).
-/
import Mathlib.Data.List.Infix
import Carmot.Wrapper.Backtrace

namespace Carmot.Wrapper

-- ============================================================ comparisons

theorem traceCompare_refl (s : Stack) : traceCompare s s = true := traceCompare_iff.mpr ⟨rfl, rfl⟩

theorem traceCompare_trans {s t u : Stack} (h : traceCompare s t = true)
    (h' : traceCompare t u = true) : traceCompare s u = true := by
  rw [traceCompare_iff] at *
  exact ⟨h.1.trans h'.1, h.2.trans h'.2⟩

theorem traceCompare_symm {s t : Stack} (h : traceCompare s t = true) :
    traceCompare t s = true := by
  rw [traceCompare_iff] at *
  exact ⟨h.1.symm, h.2.symm⟩

-- ================================================================= builds

section Builds

variable {σ : Type} (heap : σ → List Trace) (getBacktrace : σ → Stack → σ × TracePtr)

/-- At every call the object returned has the frames of the stack that
was captured. -/
def Faithful : σ → List Stack → Prop
  | _, [] => True
  | st, s :: ss =>
      (∃ t, (heap (getBacktrace st s).1)[(getBacktrace st s).2]? = some t
        ∧ t.nptrs = s.nptrs ∧ t.frames = s.frames)
      ∧ Faithful (getBacktrace st s).1 ss

/-- The build after some calls. -/
def after (st : σ) (ss : List Stack) : σ := ss.foldl (fun st s => (getBacktrace st s).1) st

theorem faithful_append {ss ss' : List Stack} :
    ∀ {st : σ}, Faithful heap getBacktrace st (ss ++ ss') ↔
      Faithful heap getBacktrace st ss
        ∧ Faithful heap getBacktrace (after getBacktrace st ss) ss' := by
  induction ss with
  | nil => intro st; simp [Faithful, after]
  | cons s ss ih =>
      intro st
      simp only [List.cons_append, Faithful, ih, after, List.foldl_cons, and_assoc]

/-- What one call does, in every build: the objects it leaves are the
old ones or hold the captured stack, and the one it returns compares
equal to it. -/
structure ServesCaptured : Prop where
  objects : ∀ st s, ∀ t ∈ heap (getBacktrace st s).1,
    (∃ t' ∈ heap st, t.toStack = t'.toStack) ∨ t.toStack = s
  returned : ∀ st s, ∃ t, (heap (getBacktrace st s).1)[(getBacktrace st s).2]? = some t
    ∧ traceCompare s t.toStack = true

variable {heap getBacktrace}

/-- Such a build is faithful to stacks the comparison tells apart. -/
theorem ServesCaptured.faithful (h : ServesCaptured heap getBacktrace) {all : List Stack}
    (hall : ∀ s ∈ all, ∀ t ∈ all, traceCompare s t = true → s.frames = t.frames)
    (ss : List Stack) :
    ∀ st, (∀ s ∈ ss, s ∈ all) → (∀ t ∈ heap st, t.toStack ∈ all) →
      Faithful heap getBacktrace st ss := by
  induction ss with
  | nil => intro st _ _; trivial
  | cons s ss ih =>
      intro st hss hst
      have hs := hss s (List.mem_cons_self ..)
      have hst' : ∀ t ∈ heap (getBacktrace st s).1, t.toStack ∈ all := by
        intro t ht
        rcases h.objects st s t ht with ⟨t', ht', heq⟩ | heq
        · rw [heq]
          exact hst t' ht'
        · rw [heq]
          exact hs
      refine ⟨?_, ih _ (fun s' hs' => hss s' (List.mem_cons_of_mem _ hs')) hst'⟩
      obtain ⟨t, ht, hcmp⟩ := h.returned st s
      refine ⟨t, ht, (traceCompare_iff.mp hcmp).1.symm, ?_⟩
      exact (hall s hs _ (hst' t (List.mem_of_getElem? ht)) hcmp).symm

end Builds

-- ============================================================== the store

namespace TraceStore

theorem compares_iff {st : TraceStore} {x : Trace} {p : TracePtr} :
    st.compares x p = true ↔
      ∃ t, st.heap[p]? = some t ∧ traceCompare x.toStack t.toStack = true := by
  unfold compares
  cases st.heap[p]? with
  | none => simp
  | some t => simp

theorem push_heap (st : TraceStore) (x : Trace) :
    (st.push x).1.heap = st.heap ++ [x] ∧ (st.push x).2 = st.heap.length := ⟨rfl, rfl⟩

/-- The look-up returns an object that compares equal, and adds at most
the trace itself. -/
theorem findOrPush_spec (st : TraceStore) (x : Trace) :
    ((st.findOrPush x).1.heap = st.heap ∨ (st.findOrPush x).1.heap = st.heap ++ [x])
      ∧ ∃ t, (st.findOrPush x).1.heap[(st.findOrPush x).2]? = some t
        ∧ traceCompare x.toStack t.toStack = true := by
  have hpush : ((st.push x).1.heap = st.heap ∨ (st.push x).1.heap = st.heap ++ [x])
      ∧ ∃ t, (st.push x).1.heap[(st.push x).2]? = some t
        ∧ traceCompare x.toStack t.toStack = true := by
    refine ⟨Or.inr rfl, x, ?_, traceCompare_refl _⟩
    rw [(st.push_heap x).1, (st.push_heap x).2, List.getElem?_concat_length]
  unfold findOrPush
  split
  · split
    next hfound => exact ⟨Or.inl rfl, compares_iff.mp (List.find?_some hfound)⟩
    next => exact hpush
  · exact hpush

/-- Counting an access changes no stack. -/
theorem getElem?_touch (st : TraceStore) (p q : TracePtr) :
    ((st.touch p).heap[q]?).map (·.toStack) = (st.heap[q]?).map (·.toStack) := by
  unfold touch
  rw [List.getElem?_modify]
  cases st.heap[q]? with
  | none => rfl
  | some t =>
      by_cases h : p = q
      · simp [h]
      · simp [h]

theorem map_touch (st : TraceStore) (p : TracePtr) :
    (st.touch p).heap.map (·.toStack) = st.heap.map (·.toStack) := by
  apply List.ext_getElem?
  intro q
  rw [List.getElem?_map, List.getElem?_map, getElem?_touch]

end TraceStore

/-- Stacks of a grown heap. -/
theorem objects_of_append {h h' : List Trace} {x : Trace} (hgrow : h' = h ∨ h' = h ++ [x]) :
    ∀ t ∈ h', (∃ t' ∈ h, t.toStack = t'.toStack) ∨ t.toStack = x.toStack := by
  intro t ht
  rcases hgrow with rfl | rfl
  · exact Or.inl ⟨t, ht, rfl⟩
  · rcases List.mem_append.mp ht with ht | ht
    · exact Or.inl ⟨t, ht, rfl⟩
    · rw [List.mem_singleton.mp ht]
      exact Or.inr rfl

theorem servesCaptured_noCache : ServesCaptured TraceStore.heap getBacktraceNoCache where
  objects st s := objects_of_append (st.findOrPush_spec (Trace.new s)).1
  returned st s := (st.findOrPush_spec (Trace.new s)).2

theorem servesCaptured_lru (csize : Nat) :
    ServesCaptured (fun c : LRUCache => c.store.heap) (getBacktraceLRU csize) where
  objects c s := by
    unfold getBacktraceLRU LRUCache.refer
    split
    · exact objects_of_append (c.store.findOrPush_spec (Trace.new s)).1
    · intro t ht
      exact Or.inl ⟨t, ht, rfl⟩
  returned c s := by
    unfold getBacktraceLRU LRUCache.refer
    split
    · exact (c.store.findOrPush_spec (Trace.new s)).2
    next hfound => exact TraceStore.compares_iff.mp (List.find?_some hfound)

/-- One call of the cached build, by the objects before the access is
counted. -/
theorem getBacktraceCache_spec (traceCacheSize : Nat) (c : TraceCache) (s : Stack) :
    ∃ store : TraceStore, (store.heap = c.store.heap ∨ store.heap = c.store.heap ++ [Trace.new s])
      ∧ (∃ t, store.heap[(getBacktraceCache traceCacheSize c s).2]? = some t
        ∧ traceCompare s t.toStack = true)
      ∧ (getBacktraceCache traceCacheSize c s).1.store
        = store.touch (getBacktraceCache traceCacheSize c s).2 := by
  unfold getBacktraceCache insertOrGetTrace
  dsimp only
  by_cases hroom : c.traceCache.length < traceCacheSize
  · rw [if_pos hroom]
    refine ⟨(c.store.newTrace (Trace.new s)).1, Or.inr rfl, ⟨Trace.new s, ?_, traceCompare_refl _⟩,
      rfl⟩
    show (c.store.heap ++ [Trace.new s])[c.store.heap.length]? = _
    rw [List.getElem?_concat_length]
  · rw [if_neg hroom]
    cases hfound : c.traceCache.find? (c.store.compares (Trace.new s)) with
    | some p =>
        exact ⟨c.store, Or.inl rfl, TraceStore.compares_iff.mp (List.find?_some hfound), rfl⟩
    | none =>
        have hspec := c.store.findOrPush_spec (Trace.new s)
        exact ⟨(c.store.findOrPush (Trace.new s)).1, hspec.1, hspec.2, rfl⟩

theorem servesCaptured_cache (traceCacheSize : Nat) :
    ServesCaptured (fun c : TraceCache => c.store.heap) (getBacktraceCache traceCacheSize) where
  objects c s := by
    obtain ⟨store, hgrow, -, htouch⟩ := getBacktraceCache_spec traceCacheSize c s
    intro t ht
    have hmem : t.toStack ∈ store.heap.map (·.toStack) := by
      rw [← store.map_touch (getBacktraceCache traceCacheSize c s).2, ← htouch]
      exact List.mem_map_of_mem ht
    obtain ⟨t', ht', heq⟩ := List.mem_map.mp hmem
    rw [← heq]
    exact objects_of_append hgrow t' ht'
  returned c s := by
    obtain ⟨store, -, ⟨t, ht, hcmp⟩, htouch⟩ := getBacktraceCache_spec traceCacheSize c s
    have hget := store.getElem?_touch (getBacktraceCache traceCacheSize c s).2
      (getBacktraceCache traceCacheSize c s).2
    rw [← htouch, ht] at hget
    cases hheap : (getBacktraceCache traceCacheSize c s).1.store.heap[
        (getBacktraceCache traceCacheSize c s).2]? with
    | none => rw [hheap] at hget; cases hget
    | some t' =>
        rw [hheap] at hget
        injection hget with hget
        have hstack : t'.toStack = t.toStack := hget
        refine ⟨t', rfl, ?_⟩
        rw [hstack]
        exact hcmp

-- ===================================================== the trace cache

/-- The trace cache holds the stacks of the first calls, in order. -/
structure CacheFilled (first : List Stack) (c : TraceCache) : Prop where
  cache : c.traceCache = List.range first.length
  heap : first <+: c.store.heap.map (·.toStack)

/-- An entry of the cache, by its position. -/
theorem CacheFilled.object {first : List Stack} {c : TraceCache} (h : CacheFilled first c)
    {i : Nat} {z : Stack} (hz : first[i]? = some z) :
    ∃ t : Trace, c.store.heap[i]? = some t ∧ t.toStack = z := by
  obtain ⟨rest, hrest⟩ := h.heap
  have hlt : i < first.length := (List.getElem?_eq_some_iff.mp hz).1
  have hmap : (c.store.heap.map (·.toStack))[i]? = some z := by
    rw [← hrest, List.getElem?_append_left hlt, hz]
  rw [List.getElem?_map] at hmap
  exact Option.map_eq_some_iff.mp hmap

theorem cacheFilled_init : CacheFilled [] TraceCache.init := ⟨rfl, List.nil_prefix⟩

/-- While the cache has room a call adds its stack, at the end of the
heap. -/
theorem CacheFilled.fill {traceCacheSize : Nat} {first : List Stack} {c : TraceCache}
    (h : CacheFilled first c) (hexact : c.store.heap.length = first.length)
    (hroom : first.length < traceCacheSize) (s : Stack) :
    CacheFilled (first ++ [s]) (getBacktraceCache traceCacheSize c s).1
      ∧ (getBacktraceCache traceCacheSize c s).1.store.heap.length = (first ++ [s]).length := by
  have hlen : c.traceCache.length < traceCacheSize := by
    rw [h.cache, List.length_range]
    exact hroom
  have hheap : c.store.heap.map (·.toStack) = first := by
    refine (h.heap.eq_of_length ?_).symm
    rw [List.length_map]
    exact hexact.symm
  have hstep : (getBacktraceCache traceCacheSize c s).1
      = ⟨(c.store.newTrace (Trace.new s)).1.touch c.store.heap.length,
        c.traceCache ++ [c.store.heap.length]⟩ := by
    unfold getBacktraceCache insertOrGetTrace
    dsimp only
    rw [if_pos hlen]
    rfl
  have hmap : (getBacktraceCache traceCacheSize c s).1.store.heap.map (·.toStack)
      = first ++ [s] := by
    rw [hstep]
    show ((c.store.newTrace (Trace.new s)).1.touch _).heap.map (·.toStack) = _
    rw [TraceStore.map_touch]
    show (c.store.heap ++ [Trace.new s]).map (·.toStack) = _
    rw [List.map_append, hheap]
    rfl
  refine ⟨⟨?_, ?_⟩, ?_⟩
  · rw [hstep, h.cache, hexact, List.length_append]
    exact List.range_succ.symm
  · rw [hmap]
  · rw [← hmap, List.length_map]

/-- A full cache stays as it is. -/
theorem CacheFilled.keep {first : List Stack} {c : TraceCache} (h : CacheFilled first c)
    (s : Stack) : CacheFilled first (getBacktraceCache first.length c s).1 := by
  obtain ⟨store, hgrow, -, htouch⟩ := getBacktraceCache_spec first.length c s
  refine ⟨?_, ?_⟩
  · have hfull : ¬ c.traceCache.length < first.length := by
      rw [h.cache, List.length_range]
      exact Nat.lt_irrefl _
    rw [← h.cache]
    unfold getBacktraceCache insertOrGetTrace
    dsimp only
    rw [if_neg hfull]
    split
    next heq => injection heq with h₁ h₂; rw [← h₁]
    next heq => injection heq with h₁ h₂; rw [← h₁]; rfl
  · rw [htouch, TraceStore.map_touch]
    refine h.heap.trans ?_
    rcases hgrow with hgrow | hgrow
    · rw [hgrow]
    · rw [hgrow, List.map_append]
      exact List.prefix_append ..

/-- The first calls fill the cache. -/
theorem cacheFilled_after {traceCacheSize : Nat} (ss : List Stack) :
    ∀ {first : List Stack} {c : TraceCache}, CacheFilled first c →
      c.store.heap.length = first.length → (first ++ ss).length ≤ traceCacheSize →
      CacheFilled (first ++ ss) (after (getBacktraceCache traceCacheSize) c ss) := by
  induction ss with
  | nil =>
      intro first c h _ _
      rw [List.append_nil]
      exact h
  | cons s ss ih =>
      intro first c h hexact hle
      have hroom : first.length < traceCacheSize := by
        rw [List.length_append, List.length_cons] at hle
        omega
      obtain ⟨h', hexact'⟩ := h.fill hexact hroom s
      have happ : first ++ [s] ++ ss = first ++ s :: ss := by
        rw [List.append_assoc]
        rfl
      rw [← happ] at hle ⊢
      exact ih h' hexact' hle

/-- The later ones leave it. -/
theorem cacheFilled_keeps (first : List Stack) (ss : List Stack) :
    ∀ {c : TraceCache}, CacheFilled first c →
      CacheFilled first (after (getBacktraceCache first.length) c ss) := by
  induction ss with
  | nil => intro c h; exact h
  | cons s ss ih => intro c h; exact ih (h.keep s)

/-- A full cache answers a stack with its first entry that compares
equal. -/
theorem cache_returns_first {pre : List Stack} {x y : Stack} {c : TraceCache}
    (h : CacheFilled (pre ++ [x]) c) (hxy : traceCompare y x = true)
    (hpre : ∀ z ∈ pre, traceCompare y z = false) :
    (getBacktraceCache (pre ++ [x]).length c y).2 = pre.length
      ∧ ∃ t : Trace,
        (getBacktraceCache (pre ++ [x]).length c y).1.store.heap[pre.length]? = some t
          ∧ t.toStack = x := by
  have hfind : c.traceCache.find? (c.store.compares (Trace.new y)) = some pre.length := by
    rw [h.cache, List.length_append, List.length_singleton, List.range_succ, List.find?_append]
    have hnone : (List.range pre.length).find? (c.store.compares (Trace.new y)) = none := by
      rw [List.find?_eq_none]
      intro i hi hcmp
      have hlt := List.mem_range.mp hi
      obtain ⟨t, ht, hcmp⟩ := TraceStore.compares_iff.mp hcmp
      have hget : (pre ++ [x])[i]? = some pre[i] := by
        rw [List.getElem?_append_left hlt, List.getElem?_eq_getElem hlt]
      obtain ⟨t', ht', hz⟩ := h.object hget
      rw [ht] at ht'
      injection ht' with ht'
      rw [ht', hz] at hcmp
      have hno := hpre _ (List.getElem_mem hlt)
      rw [show (Trace.new y).toStack = y from rfl, hno] at hcmp
      cases hcmp
    obtain ⟨t, ht, hx⟩ := h.object List.getElem?_concat_length
    have hyes : c.store.compares (Trace.new y) pre.length = true := by
      refine TraceStore.compares_iff.mpr ⟨t, ht, ?_⟩
      rw [hx]
      exact hxy
    rw [hnone, List.find?_cons_of_pos hyes]
    rfl
  have hfull : ¬ c.traceCache.length < (pre ++ [x]).length := by
    rw [h.cache, List.length_range]
    exact Nat.lt_irrefl _
  have hret : (getBacktraceCache (pre ++ [x]).length c y).2 = pre.length := by
    unfold getBacktraceCache insertOrGetTrace
    dsimp only
    rw [if_neg hfull, hfind]
  exact ⟨hret, (h.keep y).object List.getElem?_concat_length⟩

-- ============================================================= all builds

/-- Every build of `getBacktrace`, with every cache size, is faithful to
the captured stacks. -/
def AllFaithful (captured : List Stack) : Prop :=
  Faithful TraceStore.heap getBacktraceNoCache TraceStore.init captured
    ∧ (∀ csize, 1 ≤ csize →
      Faithful (fun c => c.store.heap) (getBacktraceLRU csize) LRUCache.init captured)
    ∧ ∀ traceCacheSize,
      Faithful (fun c => c.store.heap) (getBacktraceCache traceCacheSize) TraceCache.init captured

/-- Stacks that compare equal have equal frames. -/
def ToldApart (captured : List Stack) : Prop :=
  ∀ s ∈ captured, ∀ t ∈ captured, traceCompare s t = true → s.frames = t.frames

/-- A cache filled up to the first stack of a class answers the class
with it. -/
theorem frames_of_cacheFaithful {captured : List Stack}
    (h : ∀ traceCacheSize, Faithful (fun c : TraceCache => c.store.heap)
      (getBacktraceCache traceCacheSize) TraceCache.init captured)
    {pre post : List Stack} {x y : Stack} (hsplit : captured = pre ++ x :: post)
    (hpre : ∀ z ∈ pre, traceCompare y z = false) (hxy : traceCompare y x = true)
    (hy : y ∈ captured) : y.frames = x.frames := by
  rw [hsplit] at hy
  rcases List.mem_append.mp hy with hy | hy
  · have hno := hpre y hy
    rw [traceCompare_refl] at hno
    cases hno
  · rcases List.mem_cons.mp hy with rfl | hy
    · rfl
    · obtain ⟨mid, post', hpost⟩ := List.append_of_mem hy
      have hrun := h (pre ++ [x]).length
      have hcalls : captured = ((pre ++ [x]) ++ mid) ++ y :: post' := by
        rw [hsplit, hpost]
        simp
      rw [hcalls, faithful_append] at hrun
      have hfilled : CacheFilled (pre ++ [x])
          (after (getBacktraceCache (pre ++ [x]).length) TraceCache.init ((pre ++ [x]) ++ mid)) := by
        have hfirst := cacheFilled_after (pre ++ [x]) cacheFilled_init rfl
          (Nat.le_refl (pre ++ [x]).length)
        rw [List.nil_append] at hfirst
        have hrest := cacheFilled_keeps (pre ++ [x]) mid hfirst
        unfold after at hrest ⊢
        rw [List.foldl_append]
        exact hrest
      obtain ⟨t, ht, -, hframes⟩ := hrun.2.1
      obtain ⟨hret, t', ht', hx⟩ := cache_returns_first hfilled hxy hpre
      rw [hret, ht'] at ht
      injection ht with ht
      rw [← hframes, ← ht, hx]

/-- All builds are faithful to a sequence of captured stacks exactly
when `traceCompare` tells the stacks apart. -/
theorem allFaithful_iff (captured : List Stack) : AllFaithful captured ↔ ToldApart captured := by
  constructor
  · intro h s hs t ht hst
    -- the first stack that compares equal to both
    obtain ⟨x, hx⟩ : ∃ x, captured.find? (fun z => traceCompare s z) = some x := by
      rw [← Option.isSome_iff_exists, List.find?_isSome]
      exact ⟨s, hs, traceCompare_refl s⟩
    obtain ⟨hsx, pre, post, hsplit, hpre⟩ := List.find?_eq_some_iff_append.mp hx
    have hpre' : ∀ z ∈ pre, traceCompare s z = false := by
      intro z hz
      simpa using hpre z hz
    have hpre'' : ∀ z ∈ pre, traceCompare t z = false := by
      intro z hz
      rw [Bool.eq_false_iff]
      intro htz
      have hsz := hpre' z hz
      rw [traceCompare_trans hst htz] at hsz
      cases hsz
    have htx := traceCompare_trans (traceCompare_symm hst) hsx
    rw [frames_of_cacheFaithful h.2.2 hsplit hpre' hsx hs,
      frames_of_cacheFaithful h.2.2 hsplit hpre'' htx ht]
  · intro h
    have hsub : ∀ s ∈ captured, s ∈ captured := fun _ hs => hs
    refine ⟨?_, ?_, ?_⟩
    · exact servesCaptured_noCache.faithful h captured _ hsub fun t ht => absurd ht List.not_mem_nil
    · intro csize _
      exact (servesCaptured_lru csize).faithful h captured _ hsub
        fun t ht => absurd ht List.not_mem_nil
    · intro traceCacheSize
      exact (servesCaptured_cache traceCacheSize).faithful h captured _ hsub
        fun t ht => absurd ht List.not_mem_nil

/-- Two activations that differ in the order of their last two return
addresses: every build answers the second with the first, the cached one
as soon as its cache is full. -/
theorem not_allFaithful_permuted :
    let s := Stack.ofFrames [0x401136, 0x401150, 0x40117a] (by decide) (by decide)
    let t := Stack.ofFrames [0x401136, 0x40117a, 0x401150] (by decide) (by decide)
    s.frames ≠ t.frames
      ∧ (getBacktraceNoCache (after getBacktraceNoCache TraceStore.init [s]) t).2 = 0
      ∧ (getBacktraceLRU 200 (after (getBacktraceLRU 200) LRUCache.init [s]) t).2 = 0
      ∧ (getBacktraceCache 1 (after (getBacktraceCache 1) TraceCache.init [s]) t).2 = 0
      ∧ ¬ AllFaithful [s, t] := by
  intro s t
  have hne : s.frames ≠ t.frames := by decide +kernel
  refine ⟨hne, by decide +kernel, by decide +kernel, by decide +kernel, ?_⟩
  intro h
  have hcmp : traceCompare t s = true := by decide +kernel
  exact hne (frames_of_cacheFaithful h.2.2 rfl (fun z hz => absurd hz List.not_mem_nil) hcmp
    (List.mem_cons_of_mem _ (List.mem_cons_self ..))).symm

end Carmot.Wrapper
