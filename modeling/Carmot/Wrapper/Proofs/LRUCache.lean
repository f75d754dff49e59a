/-
What `LRUCache` holds after any sequence of `refer` calls.

`traceCompare` compares what it reads of two traces, so its classes are
the values of `traceClass`, and the list is determined by the classes
alone: `CacheInv` says that the classes of `dq` are the first `csize` of
the history's classes in the order of their last use (Lib/Recency.lean),
that `ma` is the table of the list's iterators (Lib/LinkedList.lean),
and that every object is in the bucket of its hash. The hash decides
only whether a class that has left the list gets its old object back or
a new one.

Each path of `refer` is one move: a hit, a miss with room, a miss that
evicts. None of them is ever stuck at a stale iterator.
-/
import Carmot.Lib.History
import Carmot.Lib.Recency
import Carmot.Wrapper.LRUCache

namespace Carmot.Wrapper.LRU

open Carmot.Lib (LinkedList getElem?_concat_eq_some recent)

-- ================================================================= comparing

/-- What `traceCompare` reads of a trace. -/
def traceClass (t : Trace) : Nat × List UInt8 := (t.nptrs, t.bytes.take t.nptrs)

theorem traceCompare_iff {s t : Trace} : traceCompare s t = true ↔ traceClass s = traceClass t := by
  unfold traceCompare memcmpEqual traceClass
  rw [Bool.and_eq_true, beq_iff_eq, beq_iff_eq, Prod.mk.injEq]
  constructor
  · intro h
    exact ⟨h.1, by rw [h.2, h.1]⟩
  · intro h
    exact ⟨h.1, by rw [h.2, h.1]⟩

namespace Cache

/-- The class of an object. -/
def classOf (c : Cache) (p : TracePtr) : Option (Nat × List UInt8) := c.heap[p]?.map traceClass

theorem compares_iff {c : Cache} {x : Trace} {p : TracePtr} :
    c.compares x p = true ↔ c.classOf p = some (traceClass x) := by
  unfold compares classOf
  cases c.heap[p]? with
  | none => simp
  | some t =>
      show traceCompare x t = true ↔ _
      rw [traceCompare_iff, Option.map_some, Option.some.injEq]
      exact eq_comm

theorem classOf_eq_some {c : Cache} {p : TracePtr} {k : Nat × List UInt8}
    (h : c.classOf p = some k) : ∃ t, c.heap[p]? = some t ∧ traceClass t = k := by
  unfold classOf at h
  exact Option.map_eq_some_iff.mp h

-- ================================================================== the store

/-- The buckets hold objects under their own hash, and hold them all. -/
structure StoreInv (c : Cache) : Prop where
  own : ∀ h bucket, c.hashToTraceMap h = some bucket → ∀ p ∈ bucket,
    ∃ t, c.heap[p]? = some t ∧ t.hashPart1 = h
  all : ∀ p t, c.heap[p]? = some t →
    ∃ bucket, c.hashToTraceMap t.hashPart1 = some bucket ∧ p ∈ bucket

theorem storeInv_init : StoreInv init where
  own h bucket hb := by cases hb
  all p t ht := by simp [init] at ht

/-- What a look-up does: the list is not touched, old objects keep their
class, and the object it gives has the class asked for. -/
structure Served (c : Cache) (x : Trace) (c' : Cache) (p : TracePtr) : Prop where
  store : StoreInv c'
  dq : c'.dq = c.dq
  ma : c'.ma = c.ma
  keeps : ∀ q k, c.classOf q = some k → c'.classOf q = some k
  served : c'.classOf p = some (traceClass x)

/-- The objects after a push. -/
theorem getElem?_push {c : Cache} {x t : Trace} {p : TracePtr} :
    (c.push x).1.heap[p]? = some t ↔ c.heap[p]? = some t ∨ (p = c.heap.length ∧ t = x) :=
  getElem?_concat_eq_some

/-- The buckets after a push. -/
theorem mem_bucket_push {c : Cache} {x : Trace} {h : UInt64} {p : TracePtr} :
    (∃ bucket, (c.push x).1.hashToTraceMap h = some bucket ∧ p ∈ bucket) ↔
      (∃ bucket, c.hashToTraceMap h = some bucket ∧ p ∈ bucket)
        ∨ (h = x.hashPart1 ∧ p = c.heap.length) := by
  by_cases hh : h = x.hashPart1
  · subst hh
    cases hb : c.hashToTraceMap x.hashPart1 with
    | none => simp [push, hb]
    | some bucket => simp [push, hb]
  · simp [push, hh]

theorem StoreInv.push {c : Cache} (hst : StoreInv c) (x : Trace) : StoreInv (c.push x).1 where
  own h bucket hb p hp := by
    rcases mem_bucket_push.mp ⟨bucket, hb, hp⟩ with ⟨old, hold, hp⟩ | ⟨rfl, rfl⟩
    · obtain ⟨t, ht, heq⟩ := hst.own h old hold p hp
      exact ⟨t, getElem?_push.mpr (Or.inl ht), heq⟩
    · exact ⟨x, getElem?_push.mpr (Or.inr ⟨rfl, rfl⟩), rfl⟩
  all p t ht := by
    apply mem_bucket_push.mpr
    rcases getElem?_push.mp ht with ht | ⟨rfl, rfl⟩
    · exact Or.inl (hst.all p t ht)
    · exact Or.inr ⟨rfl, rfl⟩

theorem push_served {c : Cache} (hst : StoreInv c) (x : Trace) :
    Served c x (c.push x).1 (c.push x).2 := by
  refine ⟨hst.push x, rfl, rfl, fun q k hq => ?_, ?_⟩
  · obtain ⟨t, ht, rfl⟩ := classOf_eq_some hq
    unfold classOf
    rw [getElem?_push.mpr (Or.inl ht)]
    rfl
  · have hnew : (c.push x).1.heap[(c.push x).2]? = some x :=
      getElem?_push.mpr (Or.inr ⟨rfl, rfl⟩)
    unfold classOf
    rw [hnew]
    rfl

theorem findOrPush_served {c : Cache} (hst : StoreInv c) (x : Trace) :
    Served c x (c.findOrPush x).1 (c.findOrPush x).2 := by
  unfold findOrPush
  split
  · split
    next p hp =>
      exact ⟨hst, rfl, rfl, fun _ _ h => h, compares_iff.mp (List.find?_some hp)⟩
    · exact push_served hst x
  · exact push_served hst x

-- ============================================================== the invariant

/-- The cache after the calls of `hist`, the newest first. -/
structure CacheInv (csize : Nat) (hist : List Trace) (c : Cache) : Prop where
  store : StoreInv c
  classes : c.dq.values.map c.classOf = ((recent (hist.map traceClass)).take csize).map some
  iterators : c.dq.Designated c.ma

theorem cacheInv_init (csize : Nat) : CacheInv csize [] init where
  store := storeInv_init
  classes := by simp [init, LinkedList.empty, LinkedList.values, recent]
  iterators := LinkedList.designated_empty

section Inv

variable {csize : Nat} {hist : List Trace} {c : Cache}

/-- The list has as many elements as classes. -/
theorem CacheInv.length (h : CacheInv csize hist c) :
    c.dq.values.length = ((recent (hist.map traceClass)).take csize).length := by
  have hlen := congrArg List.length h.classes
  rw [List.length_map, List.length_map] at hlen
  exact hlen

/-- Its classes are all different. -/
theorem CacheInv.nodup_classes (h : CacheInv csize hist c) :
    (c.dq.values.map c.classOf).Nodup := by
  rw [h.classes]
  have hrecent := (Carmot.Lib.nodup_recent (hist.map traceClass)).sublist (List.take_sublist csize _)
  exact hrecent.map (Option.some_injective _)

theorem CacheInv.nodup (h : CacheInv csize hist c) : c.dq.values.Nodup := h.nodup_classes.of_map _

/-- A class is in the list when it is among the most recent. -/
theorem CacheInv.mem_classes (h : CacheInv csize hist c) (k : Nat × List UInt8) :
    some k ∈ c.dq.values.map c.classOf ↔ k ∈ (recent (hist.map traceClass)).take csize := by
  rw [h.classes]
  exact List.mem_map_of_injective (Option.some_injective _)

/-- Every element is an object. -/
theorem CacheInv.object (h : CacheInv csize hist c) {p : TracePtr} (hp : p ∈ c.dq.values) :
    ∃ t, c.heap[p]? = some t ∧ c.classOf p = some (traceClass t) := by
  have hclass : c.classOf p ∈ c.dq.values.map c.classOf := List.mem_map_of_mem hp
  rw [h.classes] at hclass
  obtain ⟨k, -, hk⟩ := List.mem_map.mp hclass
  obtain ⟨t, ht, rfl⟩ := classOf_eq_some hk.symm
  exact ⟨t, ht, hk.symm⟩

/-- A list that keeps the classes of its elements. -/
theorem map_classOf_congr {c' : Cache} {ps : List TracePtr} {ks : List (Nat × List UInt8)}
    (hkeeps : ∀ q k, c.classOf q = some k → c'.classOf q = some k)
    (h : ps.map c.classOf = ks.map some) : ps.map c'.classOf = ks.map some := by
  rw [← h]
  apply List.map_congr_left
  intro q hq
  have hclass : c.classOf q ∈ ks.map some := h ▸ List.mem_map_of_mem hq
  obtain ⟨k, -, hk⟩ := List.mem_map.mp hclass
  rw [← hk]
  exact hkeeps q k hk.symm

-- ================================================================= the moves

/-- The move of one call: the object it returns is at the front, has the
class of the argument, and the list is right for the longer history. -/
structure Moved (csize : Nat) (hist : List Trace) (x : Trace) (c' : Cache) (p : TracePtr) :
    Prop where
  inv : CacheInv csize (x :: hist) c'
  front : c'.dq.values.head? = some p
  returned : c'.classOf p = some (traceClass x)

/-- The elements whose node is not the erased one are those of another
class. -/
theorem CacheInv.erase_classes (h : CacheInv csize hist c) {p : TracePtr} {it : Nat}
    {k : Nat × List UInt8} (hit : (it, p) ∈ c.dq.nodes) (hk : c.classOf p = some k) :
    ((c.dq.nodes.filter fun n => n.1 ≠ it).map Prod.snd).map c.classOf
      = (((recent (hist.map traceClass)).take csize).filter fun j => j ≠ k).map some := by
  have hsame : ∀ n ∈ c.dq.nodes, decide (n.1 ≠ it) = decide (c.classOf n.2 ≠ some k) := by
    intro n hn
    rw [decide_eq_decide]
    constructor
    · intro hne hclass
      have hmem : n.2 ∈ c.dq.values := List.mem_map_of_mem hn
      have hmem' : p ∈ c.dq.values := List.mem_map_of_mem hit
      have hp : n.2 = p :=
        List.inj_on_of_nodup_map h.nodup_classes hmem hmem' (hclass.trans hk.symm)
      apply hne
      apply LinkedList.node_unique h.nodup _ hit
      rw [← hp]
      exact hn
    · intro hne heq
      apply hne
      have hval : n.2 = p := LinkedList.value_unique (by rw [← heq]; exact hn) hit
      rw [hval, hk]
  rw [List.filter_congr hsame, List.map_map]
  have hclasses := h.classes
  unfold LinkedList.values at hclasses
  rw [List.map_map] at hclasses
  have hnodes : (c.dq.nodes.map (c.classOf ∘ Prod.snd)).filter (fun o => o ≠ some k)
      = (c.dq.nodes.filter fun n => c.classOf n.2 ≠ some k).map (c.classOf ∘ Prod.snd) := by
    rw [List.filter_map]
    rfl
  rw [← hnodes, hclasses, List.filter_map]
  congr 1
  apply List.filter_congr
  intro j _
  simp

/-- A hit, in place or from further back. -/
theorem refer_hit (hn : 1 ≤ csize) (h : CacheInv csize hist c) {x : Trace} {p : TracePtr}
    (hfind : c.dq.values.find? (c.compares x) = some p) :
    ∃ c', c.refer csize x = some (c', p) ∧ Moved csize hist x c' p := by
  have hclass : c.classOf p = some (traceClass x) := compares_iff.mp (List.find?_some hfind)
  have hp : p ∈ c.dq.values := List.mem_of_find?_eq_some hfind
  obtain ⟨it, hit⟩ := LinkedList.mem_values.mp hp
  have hma : c.ma p = some it := (h.iterators p it).mpr hit
  have hk : traceClass x ∈ (recent (hist.map traceClass)).take csize := by
    rw [← h.mem_classes, ← hclass]
    exact List.mem_map_of_mem hp
  have hrecent := Carmot.Lib.recent_take_hit hn hk
  have herased := h.erase_classes hit hclass
  by_cases hbegin : c.dq.begin? = some it
  · -- at the front already, so the others are what stands behind it
    obtain ⟨v, hnodes⟩ := LinkedList.nodes_of_begin hbegin
    have hv : v = p := LinkedList.value_unique (by rw [hnodes]; exact List.mem_cons_self ..) hit
    have hvalues : c.dq.values = p :: (c.dq.nodes.filter fun n => n.1 ≠ it).map Prod.snd := by
      have hmapped := congrArg (List.map Prod.snd) hnodes
      rw [hv] at hmapped
      exact hmapped
    refine ⟨c, by simp [refer, hfind, hma, hbegin], ⟨h.store, ?_, h.iterators⟩, ?_, hclass⟩
    · rw [hvalues, List.map_cons, hclass, herased, List.map_cons, hrecent, List.map_cons]
    · rw [hvalues, List.head?_cons]
  · obtain ⟨l, herase, hnodes⟩ := LinkedList.erase_of_mem hit
    refine ⟨{ c with dq := l }.pushFront p, by simp [refer, hfind, hma, hbegin, herase], ?_, rfl, hclass⟩
    refine ⟨⟨h.store.own, h.store.all⟩, ?_, h.iterators.moveToFront h.nodup hit hnodes⟩
    rw [List.map_cons, hrecent, List.map_cons, ← herased, ← hnodes]
    show c.classOf p :: _ = _
    rw [hclass]
    rfl

/-- Room for a class that is not in the list: the others are as recent
as before. -/
structure Room (csize : Nat) (hist : List Trace) (x : Trace) (c' : Cache) : Prop where
  store : StoreInv c'
  iterators : c'.dq.Designated c'.ma
  classes : ∃ ks, c'.dq.values.map c'.classOf = ks.map some
    ∧ (recent ((x :: hist).map traceClass)).take csize = traceClass x :: ks

/-- The eviction of a full cache, or nothing. -/
theorem makeRoom (hn : 1 ≤ csize) (h : CacheInv csize hist c) {x : Trace}
    (hmiss : traceClass x ∉ (recent (hist.map traceClass)).take csize) :
    ∃ c', c.evictIfFull csize = some c' ∧ Room csize hist x c' := by
  have hlen := h.length
  by_cases hfull : c.dq.values.length = csize
  · have hback : ∃ last, c.dq.back? = some last := by
      unfold LinkedList.back?
      rw [← Option.isSome_iff_exists, List.getLast?_isSome]
      intro hnil
      rw [hnil] at hfull
      exact absurd hn (by rw [← hfull]; exact Nat.not_succ_le_zero 0)
    obtain ⟨last, hlast⟩ := hback
    obtain ⟨l, hpop, hnodes⟩ := LinkedList.popBack_of_back hlast
    refine ⟨{ c with dq := l, ma := Function.update c.ma last none },
      by simp [hfull, evictIfFull, hlast, hpop], ⟨h.store.own, h.store.all⟩,
      h.iterators.popBack h.nodup hlast hnodes, _, ?_,
      Carmot.Lib.recent_take_full hn hmiss (hlen ▸ hfull)⟩
    show (l.nodes.map Prod.snd).map c.classOf = _
    rw [hnodes, List.map_dropLast, List.map_dropLast, List.map_dropLast]
    exact congrArg List.dropLast h.classes
  · refine ⟨c, by simp [evictIfFull, hfull], h.store, h.iterators, _, h.classes, ?_⟩
    exact Carmot.Lib.recent_take_miss hn hmiss (hlen ▸ hfull)

/-- A miss: room is made, the object is found or made, and pushed. -/
theorem refer_miss (hn : 1 ≤ csize) (h : CacheInv csize hist c) {x : Trace}
    (hfind : c.dq.values.find? (c.compares x) = none) :
    ∃ c' p, c.refer csize x = some (c', p) ∧ Moved csize hist x c' p := by
  have hmiss : traceClass x ∉ (recent (hist.map traceClass)).take csize := by
    rw [← h.mem_classes]
    intro hmem
    obtain ⟨p, hp, hclass⟩ := List.mem_map.mp hmem
    exact List.find?_eq_none.mp hfind p hp (compares_iff.mpr hclass)
  obtain ⟨c₁, hroom, hstore, hiter, ks, hclasses, hrecent⟩ := makeRoom hn h hmiss
  have hserved := findOrPush_served hstore x
  generalize hfound : c₁.findOrPush x = found at hserved
  obtain ⟨c₂, p⟩ := found
  have hkept := map_classOf_congr hserved.keeps hclasses
  -- the class is not among the others, so the object is not in the list
  have hnew : p ∉ c₁.dq.values := by
    intro hp
    have hmem : c₂.classOf p ∈ ks.map some := hkept ▸ List.mem_map_of_mem hp
    rw [hserved.served, List.mem_map_of_injective (Option.some_injective _)] at hmem
    have hnd := (Carmot.Lib.nodup_recent ((x :: hist).map traceClass)).sublist
      (List.take_sublist csize _)
    rw [hrecent, List.nodup_cons] at hnd
    exact hnd.1 hmem
  refine ⟨c₂.pushFront p, p, ?_, ⟨⟨hserved.store.own, hserved.store.all⟩, ?_, ?_⟩, rfl,
    hserved.served⟩
  · simp [refer, hfind, hroom, hfound]
  · rw [hrecent, List.map_cons, ← hkept, ← hserved.served, ← hserved.dq]
    rfl
  · unfold pushFront
    rw [hserved.dq, hserved.ma]
    exact hiter.pushFront hnew

/-- Every call makes its move. -/
theorem refer_moved (hn : 1 ≤ csize) (h : CacheInv csize hist c) (x : Trace) :
    ∃ c' p, c.refer csize x = some (c', p) ∧ Moved csize hist x c' p := by
  cases hfind : c.dq.values.find? (c.compares x) with
  | none => exact refer_miss hn h hfind
  | some p =>
      obtain ⟨c', hrefer, hmoved⟩ := refer_hit hn h hfind
      exact ⟨c', p, hrefer, hmoved⟩

end Inv

-- ================================================================= whole runs

/-- No sequence of calls gets stuck, and each keeps the invariant. -/
theorem referAll_inv {csize : Nat} (hn : 1 ≤ csize) (xs : List Trace) :
    ∀ {hist : List Trace} {c : Cache}, CacheInv csize hist c →
      ∃ c', referAll csize c xs = some c' ∧ CacheInv csize (xs.reverse ++ hist) c' := by
  induction xs with
  | nil => intro hist c h; exact ⟨c, rfl, h⟩
  | cons x xs ih =>
      intro hist c h
      obtain ⟨c₁, p, hrefer, hmoved⟩ := refer_moved hn h x
      obtain ⟨c₂, hall, hinv⟩ := ih hmoved.inv
      refine ⟨c₂, by simp [referAll, hrefer, hall], ?_⟩
      rw [List.reverse_cons, List.append_assoc]
      exact hinv

-- ================================================================= the result

/-- The representation invariant after the calls of `hist`, the newest
first. The classes of `dq` are the last used ones, in the order of their
last use, as many as there are up to `csize`. -/
structure Represents (csize : Nat) (hist : List Trace) (c : Cache) : Prop where
  nodup : c.dq.values.Nodup
  size_le : c.dq.values.length ≤ csize
  distinct : c.dq.values.Pairwise fun p q => ∀ s t, c.heap[p]? = some s → c.heap[q]? = some t →
    traceCompare s t = false
  keys : ∀ p, (c.ma p).isSome = true ↔ p ∈ c.dq.values
  iterators : ∀ p it, c.ma p = some it → (it, p) ∈ c.dq.nodes
  stored : ∀ p ∈ c.dq.values, ∃ t, c.heap[p]? = some t
    ∧ ∃ bucket, c.hashToTraceMap t.hashPart1 = some bucket ∧ p ∈ bucket
  recency : c.dq.values.map c.classOf = ((recent (hist.map traceClass)).take csize).map some
  size_eq : c.dq.values.length = min csize (hist.map traceClass).toFinset.card

theorem CacheInv.represents {csize : Nat} {hist : List Trace} {c : Cache}
    (h : CacheInv csize hist c) : Represents csize hist c where
  nodup := h.nodup
  size_le := by
    rw [h.length]
    exact List.length_take_le ..
  distinct := by
    have hpair := h.nodup_classes
    unfold List.Nodup at hpair
    rw [List.pairwise_map] at hpair
    apply hpair.imp
    intro p q hne s t hs ht
    rw [Bool.eq_false_iff]
    intro heq
    apply hne
    unfold classOf
    rw [hs, ht, Option.map_some, Option.map_some, traceCompare_iff.mp heq]
  keys p := h.iterators.isSome_iff
  iterators p it := (h.iterators p it).mp
  stored p hp := by
    obtain ⟨t, ht, -⟩ := h.object hp
    exact ⟨t, ht, h.store.all p t ht⟩
  recency := h.classes
  size_eq := by
    rw [h.length, List.length_take, Carmot.Lib.length_recent]

/-- For every size and every sequence of calls from the empty cache: no
call is stuck, and after each one the cache represents the calls so far,
and the returned object compares equal to the argument and is at the
front. -/
theorem refer_represents (csize : Nat) (hn : 1 ≤ csize) (xs : List Trace) (x : Trace) :
    ∃ c c' p t, referAll csize init xs = some c ∧ c.refer csize x = some (c', p)
      ∧ Represents csize (x :: xs.reverse) c'
      ∧ c'.heap[p]? = some t ∧ traceCompare x t = true ∧ c'.dq.values.head? = some p := by
  obtain ⟨c, hall, hinv⟩ := referAll_inv hn xs (cacheInv_init csize)
  rw [List.append_nil] at hinv
  obtain ⟨c', p, hrefer, hmoved⟩ := refer_moved hn hinv x
  obtain ⟨t, ht, hclass⟩ := classOf_eq_some hmoved.returned
  exact ⟨c, c', p, t, hall, hrefer, hmoved.inv.represents, ht, traceCompare_iff.mpr hclass.symm,
    hmoved.front⟩

/-- Two stacks that differ in their first byte, in a cache of one; the
first is referred again under another hash. -/
theorem refer_represents_evicted :
    let trace (w h : UInt64) : Trace := ⟨fun _ => w, 1, 0, h, by decide⟩
    ∃ c c' p t, referAll 1 init [trace 7 7, trace 8 8] = some c
      ∧ c.refer 1 (trace 7 9) = some (c', p)
      ∧ Represents 1 [trace 7 9, trace 8 8, trace 7 7] c'
      ∧ c'.heap[p]? = some t ∧ traceCompare (trace 7 9) t = true ∧ c'.dq.values.head? = some p :=
  refer_represents 1 (Nat.le_refl 1) _ _

end Cache

-- ====================================================== without the iterators

/-- A hashed trace is a trace. -/
def ofTrace (t : Carmot.Wrapper.Trace) : Trace where
  buffer := t.buffer
  nptrs := t.nptrs
  accessFrequency := t.accessFrequency
  hashPart1 := t.hashPart1
  nptrs_le := Nat.le_trans t.nptrs_le (by decide)

/-- The cache with its iterators, and the one without. -/
structure Refines (c : Cache) (d : LRUCache) : Prop where
  heap : c.heap = d.store.heap.map ofTrace
  hashToTraceMap : c.hashToTraceMap = d.store.hashToTraceMap
  dq : c.dq.values = d.dq

namespace Refines

variable {c : Cache} {d : LRUCache}

theorem init : Refines Cache.init LRUCache.init := ⟨rfl, rfl, rfl⟩

theorem compares (h : Refines c d) (x : Carmot.Wrapper.Trace) :
    c.compares (ofTrace x) = d.store.compares x := by
  funext p
  unfold Cache.compares TraceStore.compares
  rw [h.heap, List.getElem?_map]
  cases d.store.heap[p]? with
  | none => rfl
  | some t => rfl

/-- Both look-ups make the same choice. -/
theorem findOrPush (h : Refines c d) (x : Carmot.Wrapper.Trace) :
    Refines (c.findOrPush (ofTrace x)).1 ⟨(d.store.findOrPush x).1, d.dq⟩
      ∧ (c.findOrPush (ofTrace x)).2 = (d.store.findOrPush x).2 := by
  have hlen : c.heap.length = d.store.heap.length := by rw [h.heap, List.length_map]
  have hpush : Refines (c.push (ofTrace x)).1 ⟨(d.store.push x).1, d.dq⟩
      ∧ (c.push (ofTrace x)).2 = (d.store.push x).2 := by
    refine ⟨⟨?_, ?_, h.dq⟩, hlen⟩
    · simp [Cache.push, TraceStore.push, TraceStore.newTrace, h.heap]
    · simp only [Cache.push, TraceStore.push, TraceStore.newTrace, h.hashToTraceMap, hlen]
      rfl
  have hbucket : c.hashToTraceMap (ofTrace x).hashPart1 = d.store.hashToTraceMap x.hashPart1 :=
    congrFun h.hashToTraceMap _
  unfold Cache.findOrPush TraceStore.findOrPush
  rw [hbucket, h.compares]
  cases d.store.hashToTraceMap x.hashPart1 with
  | none => exact hpush
  | some bucket =>
      cases hfound : bucket.find? (d.store.compares x) with
      | none => simpa [hfound] using hpush
      | some p => simpa [hfound] using h

/-- Both evict the last object of a full list. -/
theorem evictIfFull (h : Refines c d) {csize : Nat} {c' : Cache}
    (hevict : c.evictIfFull csize = some c') :
    Refines c' ⟨d.store, if d.dq.length = csize then d.dq.dropLast else d.dq⟩ := by
  unfold Cache.evictIfFull at hevict
  rw [h.dq] at hevict
  split at hevict
  next hfull =>
    obtain ⟨last, hlast, hevict⟩ := Option.bind_eq_some_iff.mp hevict
    obtain ⟨l, hpop, hevict⟩ := Option.bind_eq_some_iff.mp hevict
    obtain ⟨l', hpop', hnodes⟩ := LinkedList.popBack_of_back hlast
    rw [hpop] at hpop'
    injection hpop' with hl
    injection hevict with hevict
    subst hl hevict
    refine ⟨h.heap, h.hashToTraceMap, ?_⟩
    rw [if_pos hfull, ← h.dq]
    show l.nodes.map Prod.snd = _
    rw [hnodes, List.map_dropLast]
    rfl
  next hroom =>
    injection hevict with hevict
    rw [if_neg hroom, ← hevict]
    exact h

/-- One call, with the iterators and without: the same object, and the
same list again. -/
theorem refer (h : Refines c d) {csize : Nat} (hn : 1 ≤ csize) {hist : List Trace}
    (hinv : Cache.CacheInv csize hist c) (x : Carmot.Wrapper.Trace) :
    ∃ c', c.refer csize (ofTrace x) = some (c', (d.refer csize x).2)
      ∧ Refines c' (d.refer csize x).1 := by
  have hsearch : c.dq.values.find? (c.compares (ofTrace x)) = d.dq.find? (d.store.compares x) := by
    rw [h.dq, h.compares]
  cases hfind : d.dq.find? (d.store.compares x) with
  | none =>
      rw [hfind] at hsearch
      obtain ⟨c', p, hrefer, -⟩ := Cache.refer_miss hn hinv hsearch
      have hunfold := hrefer
      simp only [Cache.refer, hsearch] at hunfold
      obtain ⟨c₁, hevict, hrest⟩ := Option.bind_eq_some_iff.mp hunfold
      obtain ⟨hfound, hsame⟩ := (h.evictIfFull hevict).findOrPush x
      simp only [Option.some.injEq, Prod.mk.injEq] at hrest
      obtain ⟨rfl, rfl⟩ := hrest
      simp only [LRUCache.refer, hfind]
      rw [hrefer, hsame]
      refine ⟨_, rfl, hfound.heap, hfound.hashToTraceMap, ?_⟩
      exact congrArg (List.cons _) hfound.dq
  | some p =>
      rw [hfind] at hsearch
      obtain ⟨it, hit⟩ := LinkedList.mem_values.mp (List.mem_of_find?_eq_some hsearch)
      have hma : c.ma p = some it := (hinv.iterators p it).mpr hit
      have hfront := LinkedList.begin_iff_head hinv.nodup hit
      rw [h.dq] at hfront
      simp only [LRUCache.refer, hfind]
      by_cases hbegin : d.dq.head? = some p
      · refine ⟨c, by simp [Cache.refer, hsearch, hma, hfront.mpr hbegin], h.heap,
          h.hashToTraceMap, ?_⟩
        simp [hbegin, h.dq]
      · have hmove : c.dq.begin? ≠ some it := fun hb => hbegin (hfront.mp hb)
        obtain ⟨l, herase, hnodes⟩ := LinkedList.erase_of_mem hit
        refine ⟨{ c with dq := l }.pushFront p, by simp [Cache.refer, hsearch, hma, hmove, herase],
          h.heap, h.hashToTraceMap, ?_⟩
        have hvalues := LinkedList.values_of_erase hinv.nodup hit hnodes
        rw [h.dq] at hvalues
        simp only [ne_eq, hbegin, not_false_eq_true, if_true]
        exact congrArg (List.cons p) hvalues

end Refines

/-- `getBacktrace` with the LRU cache, over any captured stacks: the
iterators never make a difference. -/
theorem backtraceLRU_refines {csize : Nat} (hn : 1 ≤ csize) (captured : List Stack) :
    ∃ c, Cache.referAll csize Cache.init (captured.map fun s => ofTrace (Carmot.Wrapper.Trace.new s)) = some c
      ∧ Refines c (captured.foldl (fun d s => (getBacktraceLRU csize d s).1) LRUCache.init) := by
  have hrun : ∀ (captured : List Stack) {hist : List Trace} {c : Cache} {d : LRUCache},
      Cache.CacheInv csize hist c → Refines c d →
      ∃ c', Cache.referAll csize c (captured.map fun s => ofTrace (Carmot.Wrapper.Trace.new s)) = some c'
        ∧ Refines c' (captured.foldl (fun d s => (getBacktraceLRU csize d s).1) d) := by
    intro captured
    induction captured with
    | nil => intro hist c d _ h; exact ⟨c, rfl, h⟩
    | cons s captured ih =>
        intro hist c d hinv h
        obtain ⟨c₁, hrefer, hsame⟩ := h.refer hn hinv (Carmot.Wrapper.Trace.new s)
        obtain ⟨c₁', p, hrefer', hmoved⟩ := Cache.refer_moved hn hinv (ofTrace (Carmot.Wrapper.Trace.new s))
        rw [hrefer] at hrefer'
        injection hrefer' with hpair
        obtain ⟨rfl, -⟩ := Prod.mk.inj hpair
        obtain ⟨c₂, hall, hrefines⟩ := ih hmoved.inv hsame
        exact ⟨c₂, by simp [Cache.referAll, hrefer, hall], hrefines⟩
  exact hrun captured (Cache.cacheInv_init csize) Refines.init

end Carmot.Wrapper.LRU
