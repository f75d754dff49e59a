/-
Which allocations the cycle search collects.

The vertices of the graph stand for objects, and the edges are the links
the table still shows between them (`Seen`): a slot recorded on one
object that lies in another and holds an address of the first. With
correct component numbers an object is collected exactly when it is on a
cycle of at least two objects under these links (`collected_iff`), and
then in one cycle only. It is reported under every state that made it
(`reported_complete`).

What the search should find are the live ranges on a cycle of the
program's own pointers (`PointsTo`). The two agree when the links show
the same cycles (`CyclesShown`). While no two live ranges share an
origin, objects and live ranges are the same and every shown link is a
pointer, so the condition is about the cycles that could be missed
(`CyclesRecorded`): those of a block that points only to itself, and
those through a slot that was recorded on another block than the one it
points to now.
-/
import Carmot.Texas.Connections
import Carmot.Texas.Proofs.Lookup

namespace Carmot.Texas

open Carmot.Lib
open Relation (ReflTransGen TransGen)

-- ================================================================== vertices

/-- The vertex noted on an object is one made for it. -/
theorem addVertices_spec (objects : List AllocId) :
    (addVertices objects).2 = objects
      ∧ ∀ a ∈ objects, objects[(addVertices objects).1 a]? = some a := by
  induction objects using List.reverseRecOn with
  | nil => exact ⟨rfl, fun a ha => absurd ha List.not_mem_nil⟩
  | append_singleton objects b ih =>
      obtain ⟨hvertices, hnoted⟩ := ih
      have hlast : addVertices (objects ++ [b])
          = (Function.update (addVertices objects).1 b objects.length, objects ++ [b]) := by
        unfold addVertices at hvertices ⊢
        rw [List.foldl_append]
        simp only [List.foldl_cons, List.foldl_nil, addVertex, hvertices]
      rw [hlast]
      refine ⟨rfl, fun a ha => ?_⟩
      dsimp only
      by_cases hab : a = b
      · rw [hab, Function.update_self]
        exact List.getElem?_concat_length
      · have hold : a ∈ objects := by
          rcases List.mem_append.mp ha with h | h
          · exact h
          · exact absurd (List.mem_singleton.mp h) hab
        have hlt := (List.getElem?_eq_some_iff.mp (hnoted a hold)).1
        rw [Function.update_of_ne hab, List.getElem?_append_left hlt]
        exact hnoted a hold

theorem mem_entryObjects {t : AllocationTable} {a : AllocId} :
    a ∈ t.entryObjects ↔ a ∈ t.objects := by
  unfold AllocationTable.entryObjects AllocationTable.objects
  rw [List.mem_append, List.mem_append]
  exact or_comm

-- ===================================================================== links

/-- The table shows a link: a slot recorded on `b` lies in `a` and holds
an address of `b`. -/
def Seen (rt : Runtime) (mem : Memory) (a b : AllocId) : Prop :=
  b ∈ rt.allocationMap.objects ∧ ∃ slot ∈ (rt.allocs b).allocToEscapeMap,
    doesItAlias (rt.allocs b).pointer (rt.allocs b).length (mem slot) ≠ -1
      ∧ rt.find slot = some a

/-- An edge of the graph. -/
def ConnectionGraph.Edge (G : ConnectionGraph) (u v : Nat) : Prop := (u, v) ∈ G.edges

section Graph

variable {rt : Runtime} {mem : Memory}

/-- The vertex of an object. -/
def vertexOf (rt : Runtime) (a : AllocId) : Nat := (addVertices rt.allocationMap.entryObjects).1 a

theorem vertices_eq : (generateConnectionGraph rt mem).vertices = rt.allocationMap.entryObjects :=
  (addVertices_spec _).1

theorem getElem?_vertexOf {a : AllocId} (ha : a ∈ rt.allocationMap.objects) :
    rt.allocationMap.entryObjects[vertexOf rt a]? = some a :=
  (addVertices_spec _).2 a (mem_entryObjects.mpr ha)

/-- Objects of one vertex are one. -/
theorem vertexOf_inj {a b : AllocId} (ha : a ∈ rt.allocationMap.objects)
    (hb : b ∈ rt.allocationMap.objects) (h : vertexOf rt a = vertexOf rt b) : a = b := by
  have hget := getElem?_vertexOf ha
  rw [h, getElem?_vertexOf hb] at hget
  injection hget with hget
  exact hget.symm

theorem mem_escapeEdges {connectionVertex : AllocId → Nat} {b : AllocId} {u v : Nat} :
    (u, v) ∈ escapeEdges rt mem connectionVertex b ↔
      ∃ slot ∈ (rt.allocs b).allocToEscapeMap,
        doesItAlias (rt.allocs b).pointer (rt.allocs b).length (mem slot) ≠ -1
          ∧ ∃ a, rt.find slot = some a ∧ u = connectionVertex a ∧ v = connectionVertex b := by
  unfold escapeEdges
  rw [Finset.mem_biUnion]
  apply exists_congr
  intro slot
  apply and_congr_right
  intro _
  split
  next halias => simp [halias]
  next halias =>
    cases hf : rt.find slot with
    | none => simp
    | some a => simp [halias]

/-- The graph is drawn from the links. -/
theorem drawn_connectionGraph (rt : Runtime) (mem : Memory) :
    Drawn (Seen rt mem) (vertexOf rt) (generateConnectionGraph rt mem).Edge := by
  intro u v
  show (u, v) ∈ rt.allocationMap.entryObjects.toFinset.biUnion
    (escapeEdges rt mem (vertexOf rt)) ↔ _
  rw [Finset.mem_biUnion]
  constructor
  · rintro ⟨b, hb, huv⟩
    obtain ⟨slot, hslot, halias, a, hf, hu, hv⟩ := mem_escapeEdges.mp huv
    exact ⟨a, b, ⟨mem_entryObjects.mp (List.mem_toFinset.mp hb), slot, hslot, halias, hf⟩, hu, hv⟩
  · rintro ⟨a, b, ⟨hb, slot, hslot, halias, hf⟩, hu, hv⟩
    refine ⟨b, List.mem_toFinset.mpr (mem_entryObjects.mpr hb), ?_⟩
    exact mem_escapeEdges.mpr ⟨slot, hslot, halias, a, hf, hu, hv⟩

variable (hinv : TableInv rt)

include hinv

/-- Links are between objects of the table. -/
theorem Seen.source {a b : AllocId} (h : Seen rt mem a b) : a ∈ rt.allocationMap.objects := by
  obtain ⟨-, slot, -, -, hf⟩ := h
  exact hinv.mem_of_find hf

theorem seen_vertex_inj (a b c d : AllocId) (h : Seen rt mem a b) (h' : Seen rt mem c d)
    (heq : vertexOf rt b = vertexOf rt c) : b = c :=
  vertexOf_inj h.1 (h'.source hinv) heq

-- ================================================================ collecting

/-- The object is on a cycle of at least two objects. -/
def OnSeenCycle (rt : Runtime) (mem : Memory) (a : AllocId) : Prop :=
  ∃ b, b ≠ a ∧ TransGen (Seen rt mem) a b ∧ TransGen (Seen rt mem) b a

/-- A linked object's vertex, back to the object. -/
theorem getD_vertexOf {a b : AllocId} (h : TransGen (Seen rt mem) a b) :
    vertexOf rt a < (generateConnectionGraph rt mem).vertices.length
      ∧ (generateConnectionGraph rt mem).vertices.getD (vertexOf rt a) 0 = a := by
  obtain ⟨c, hac, -⟩ := Relation.TransGen.head'_iff.mp h
  have hget := getElem?_vertexOf (hac.source hinv)
  rw [vertices_eq]
  refine ⟨(List.getElem?_eq_some_iff.mp hget).1, ?_⟩
  rw [List.getD_eq_getElem?_getD, hget]
  rfl

variable {component : Nat → Nat}
  (hsc : StrongComponents (generateConnectionGraph rt mem).Edge
    (generateConnectionGraph rt mem).vertices.length component)

include hsc

/-- A vertex of a large component is that of an object on a cycle. -/
theorem vertex_of_largeGroup {v : Nat} {g : List Nat}
    (hg : g ∈ largeGroups component (generateConnectionGraph rt mem).vertices.length)
    (hv : v ∈ g) : ∃ a, v = vertexOf rt a ∧ OnSeenCycle rt mem a := by
  obtain ⟨hlt, w, hw, hne, hsame⟩ := mem_largeGroups.mp ⟨g, hg, hv⟩
  obtain ⟨hwv, hvw⟩ := (hsc w hw v hlt).mp hsame
  obtain ⟨a, b, hva, hwb, hab, hba⟩ :=
    (drawn_connectionGraph rt mem).mutual (seen_vertex_inj hinv) hne.symm hvw hwv
  refine ⟨a, hva, b, fun heq => hne ?_, hab, hba⟩
  rw [hva, hwb, heq]

/-- An object on a cycle has its vertex in a large component. -/
theorem largeGroup_of_onSeenCycle {a : AllocId} (h : OnSeenCycle rt mem a) :
    ∃ g ∈ largeGroups component (generateConnectionGraph rt mem).vertices.length,
      vertexOf rt a ∈ g := by
  obtain ⟨b, hne, hab, hba⟩ := h
  obtain ⟨ha, hga⟩ := getD_vertexOf hinv hab
  obtain ⟨hb, hgb⟩ := getD_vertexOf hinv hba
  apply mem_largeGroups.mpr
  refine ⟨ha, vertexOf rt b, hb, fun heq => hne ?_, ?_⟩
  · rw [← hga, ← hgb, heq]
  · have hdrawn := drawn_connectionGraph rt mem
    exact (hsc _ hb _ ha).mpr ⟨hdrawn.path hba, hdrawn.path hab⟩

/-- The objects of a large component, from its vertices. -/
theorem mem_cycle_iff {a : AllocId} {g : List Nat}
    (hg : g ∈ largeGroups component (generateConnectionGraph rt mem).vertices.length) :
    a ∈ g.map (fun v => (generateConnectionGraph rt mem).vertices.getD v 0) ↔
      OnSeenCycle rt mem a ∧ vertexOf rt a ∈ g := by
  constructor
  · intro ha
    obtain ⟨v, hv, hget⟩ := List.mem_map.mp ha
    obtain ⟨b, hvb, hcycle⟩ := vertex_of_largeGroup hinv hsc hg hv
    have hba : b = a := by
      obtain ⟨c, -, hbc, -⟩ := hcycle
      rw [← hget, hvb]
      exact (getD_vertexOf hinv hbc).2.symm
    rw [hba] at hvb hcycle
    exact ⟨hcycle, hvb ▸ hv⟩
  · rintro ⟨⟨c, -, hac, -⟩, hv⟩
    exact List.mem_map.mpr ⟨_, hv, (getD_vertexOf hinv hac).2⟩

/-- What the search collects. -/
theorem collected_iff {a : AllocId} :
    (∃ cycle ∈ (generateConnectionGraph rt mem).newCycles component, a ∈ cycle) ↔
      OnSeenCycle rt mem a := by
  constructor
  · rintro ⟨cycle, hcycle, ha⟩
    obtain ⟨g, hg, rfl⟩ := List.mem_map.mp hcycle
    exact ((mem_cycle_iff hinv hsc hg).mp ha).1
  · intro h
    obtain ⟨g, hg, hv⟩ := largeGroup_of_onSeenCycle hinv hsc h
    exact ⟨_, List.mem_map_of_mem hg, (mem_cycle_iff hinv hsc hg).mpr ⟨h, hv⟩⟩

/-- A collected object is in one cycle. -/
theorem collected_once {a : AllocId} (h : OnSeenCycle rt mem a) :
    ∃! i : Nat, ∃ cycle : List AllocId,
      ((generateConnectionGraph rt mem).newCycles component)[i]? = some cycle ∧ a ∈ cycle := by
  obtain ⟨g, hg, hv⟩ := largeGroup_of_onSeenCycle hinv hsc h
  obtain ⟨i, hi⟩ := List.mem_iff_getElem?.mp hg
  refine ⟨i, ⟨_, ?_, (mem_cycle_iff hinv hsc hg).mpr ⟨h, hv⟩⟩, ?_⟩
  · unfold ConnectionGraph.newCycles
    rw [List.getElem?_map, hi]
    rfl
  · rintro j ⟨cycle, hj, ha⟩
    unfold ConnectionGraph.newCycles at hj
    rw [List.getElem?_map, Option.map_eq_some_iff] at hj
    obtain ⟨g', hj, rfl⟩ := hj
    have hv' := ((mem_cycle_iff hinv hsc (List.mem_of_getElem? hj)).mp ha).2
    exact index_unique hj hi hv' hv rfl

-- ================================================================= reporting

/-- What the loop of the weak point has after the objects `seen`: a
lower bound of their freshness, and an object that meets it. -/
structure OldestOf (rt : Runtime) (seen : List AllocId) (found : Option AllocId × UInt64) :
    Prop where
  le : ∀ b ∈ seen, found.2 ≤ (rt.allocs b).freshness
  met : ∀ a, found.1 = some a → a ∈ seen ∧ (rt.allocs a).freshness = found.2

omit hinv hsc in
/-- One turn of the loop. -/
theorem OldestOf.step {seen : List AllocId} {found : Option AllocId × UInt64}
    (h : OldestOf rt seen found) (c : AllocId) :
    OldestOf rt (seen ++ [c])
      (if (rt.allocs c).freshness < found.2 then (some c, (rt.allocs c).freshness) else found) := by
  split
  next hlt =>
    refine ⟨fun b hb => ?_, fun a ha => ?_⟩
    · rcases List.mem_append.mp hb with hb | hb
      · exact UInt64.le_trans (UInt64.le_of_lt hlt) (h.le b hb)
      · rw [List.mem_singleton.mp hb]
        exact UInt64.le_refl _
    · rw [← Option.some.inj ha]
      exact ⟨List.mem_append_right _ (List.mem_singleton.mpr rfl), rfl⟩
  next hge =>
    refine ⟨fun b hb => ?_, fun a ha => ?_⟩
    · rcases List.mem_append.mp hb with hb | hb
      · exact h.le b hb
      · rw [List.mem_singleton.mp hb]
        exact UInt64.not_lt.mp hge
    · obtain ⟨hmem, heq⟩ := h.met a ha
      exact ⟨List.mem_append_left _ hmem, heq⟩

omit hinv hsc in
/-- The weak point is on the cycle, and no object of it is older. -/
theorem oldest_eq_some {cycle : List AllocId} {a : AllocId} (h : oldest rt cycle = some a) :
    a ∈ cycle ∧ ∀ b ∈ cycle, (rt.allocs a).freshness ≤ (rt.allocs b).freshness := by
  have hloop : OldestOf rt cycle (cycle.foldl (fun found a =>
      if (rt.allocs a).freshness < found.2 then (some a, (rt.allocs a).freshness)
      else found) (none, 0xffffffffffffffff)) := by
    clear h
    induction cycle using List.reverseRecOn with
    | nil =>
        refine ⟨fun b hb => absurd hb List.not_mem_nil, fun a ha => ?_⟩
        cases ha
    | append_singleton cycle c ih =>
        rw [List.foldl_append]
        exact ih.step c
  obtain ⟨hmem, heq⟩ := hloop.met a h
  refine ⟨hmem, fun b hb => ?_⟩
  rw [heq]
  exact hloop.le b hb

/-- What is reported is a cycle, with states that made some of it and
the oldest of its objects. -/
theorem reported_sound {stateMap : List StateId} {c : SmartPointerCycle}
    (hc : c ∈ findCyclesInConnectionGraph rt stateMap (generateConnectionGraph rt mem) component) :
    (∀ a ∈ c.cycle, OnSeenCycle rt mem a)
      ∧ (∀ s ∈ c.states, ∃ a ∈ c.cycle, a ∈ (rt.sets s).allocsAllocatedInState)
      ∧ ∀ a, c.weakPoint = some a →
          a ∈ c.cycle ∧ ∀ b ∈ c.cycle, (rt.allocs a).freshness ≤ (rt.allocs b).freshness := by
  obtain ⟨cycle, hcycle, heq⟩ := List.mem_filterMap.mp hc
  dsimp only at heq
  split at heq
  · cases heq
  · injection heq with heq
    subst heq
    refine ⟨fun a ha => ?_, fun s hs => ?_, fun a ha => oldest_eq_some ha⟩
    · exact (collected_iff hinv hsc).mp ⟨cycle, hcycle, ha⟩
    · obtain ⟨a, ha, hmade⟩ := List.any_eq_true.mp (List.mem_filter.mp hs).2
      exact ⟨a, ha, of_decide_eq_true hmade⟩

/-- An object on a cycle is reported under every state that made it. -/
theorem reported_complete {stateMap : List StateId} {a : AllocId} (h : OnSeenCycle rt mem a)
    {s : StateId} (hs : s ∈ stateMap) (hmade : a ∈ (rt.sets s).allocsAllocatedInState) :
    ∃ c ∈ findCyclesInConnectionGraph rt stateMap (generateConnectionGraph rt mem) component,
      a ∈ c.cycle ∧ s ∈ c.states := by
  obtain ⟨cycle, hcycle, ha⟩ := (collected_iff hinv hsc).mpr h
  have hstate : s ∈ stateMap.filter fun s =>
      cycle.any fun a => decide (a ∈ (rt.sets s).allocsAllocatedInState) :=
    List.mem_filter.mpr ⟨hs, List.any_eq_true.mpr ⟨a, ha, decide_eq_true hmade⟩⟩
  refine ⟨⟨cycle, _, oldest rt cycle⟩, List.mem_filterMap.mpr ⟨cycle, hcycle, ?_⟩, ha, hstate⟩
  exact if_neg (List.ne_nil_of_mem hstate)

end Graph

-- ============================================================ what is wanted

/-- Some `processAddEscape` recorded the slot. -/
def Recorded (rt : Runtime) (slot : Addr) : Prop :=
  ∃ a < rt.numAllocs, slot ∈ (rt.allocs a).allocToEscapeMap

/-- One live range points to another: a recorded slot in the first holds
an address of the second. -/
def PointsTo (rt : Runtime) (live : List LiveRange) (mem : Memory) (r s : LiveRange) : Prop :=
  r ∈ live ∧ s ∈ live ∧ ∃ slot, Recorded rt slot ∧ r.Contains slot ∧ s.Contains (mem slot)

/-- The live range is on a directed cycle, of any length. -/
def OnCycle (rt : Runtime) (live : List LiveRange) (mem : Memory) (r : LiveRange) : Prop :=
  TransGen (PointsTo rt live mem) r r

/-- The object that stands for a live range in the table. -/
def IsObject (rt : Runtime) (r : LiveRange) (a : AllocId) : Prop :=
  rt.originToAllocMap r.origin = some a

/-- The cycles collect exactly the live ranges on a cycle, each in one
of them. -/
structure CyclesExact (rt : Runtime) (live : List LiveRange) (mem : Memory)
    (cycles : List (List AllocId)) : Prop where
  live_only : ∀ cycle ∈ cycles, ∀ a ∈ cycle, ∃ r ∈ live, IsObject rt r a
  exact : ∀ r ∈ live, ∀ a, IsObject rt r a →
    ((∃ cycle ∈ cycles, a ∈ cycle) ↔ OnCycle rt live mem r)
  once : ∀ r ∈ live, ∀ a, IsObject rt r a → OnCycle rt live mem r →
    ∃! i : Nat, ∃ cycle : List AllocId, cycles[i]? = some cycle ∧ a ∈ cycle

/-- The links of the table show the cycles of the live ranges: a range
is on a cycle exactly when its object is on one of two objects or
more. -/
def CyclesShown (rt : Runtime) (live : List LiveRange) (mem : Memory) : Prop :=
  ∀ r ∈ live, ∀ a, IsObject rt r a → (OnSeenCycle rt mem a ↔ OnCycle rt live mem r)

/-- One live range points to another through a slot recorded on the
other's own object. -/
def Linked (rt : Runtime) (live : List LiveRange) (mem : Memory) (r s : LiveRange) : Prop :=
  r ∈ live ∧ s ∈ live ∧ ∃ b, IsObject rt s b ∧ ∃ slot ∈ (rt.allocs b).allocToEscapeMap,
    r.Contains slot ∧ s.Contains (mem slot)

/-- Every range on a cycle is on one with another range, all of whose
pointers are recorded where they point. -/
def CyclesRecorded (rt : Runtime) (live : List LiveRange) (mem : Memory) : Prop :=
  ∀ r ∈ live, OnCycle rt live mem r →
    ∃ s ∈ live, s ≠ r ∧ TransGen (Linked rt live mem) r s ∧ TransGen (Linked rt live mem) s r

-- ============================================================= the sentinel

/-- The keys are right and the sentinel's object is empty. -/
structure Guarded (rt : Runtime) (live : List LiveRange) : Prop extends Keyed rt live where
  sentinel : (rt.allocs 0).length = 0

section Guard

variable {rt : Runtime} {live : List LiveRange} {mem : Memory}

/-- Nothing points to an empty block. -/
theorem doesItAlias_empty (p v : Addr) : doesItAlias p 0 v = -1 := by
  unfold doesItAlias
  apply if_neg
  rintro ⟨hge, hlt⟩
  rw [UInt64.add_zero, UInt64.lt_iff_toNat_lt] at hlt
  rw [ge_iff_le, UInt64.le_iff_toNat_le] at hge
  omega

/-- A link leads to the object of a live range. -/
theorem Guarded.target (h : Guarded rt live) {a b : AllocId} (hab : Seen rt mem a b) :
    ∃ s ∈ live, IsObject rt s b := by
  obtain ⟨hb, slot, -, halias, -⟩ := hab
  obtain ⟨k, hk⟩ := h.inv.maskFree.mem_objects.mp hb
  rcases (h.keys k b).mp hk with ⟨-, hzero⟩ | ⟨s, hs, -, ho⟩
  · rw [hzero, h.sentinel] at halias
    exact absurd (doesItAlias_empty _ _) halias
  · exact ⟨s, hs, ho⟩

/-- The search is exact when the links show the cycles. -/
theorem Guarded.exact_iff_shown (h : Guarded rt live) {component : Nat → Nat}
    (hsc : StrongComponents (generateConnectionGraph rt mem).Edge
      (generateConnectionGraph rt mem).vertices.length component) :
    CyclesExact rt live mem ((generateConnectionGraph rt mem).newCycles component) ↔
      CyclesShown rt live mem := by
  constructor
  · intro hexact r hr a ha
    rw [← collected_iff h.inv hsc]
    exact hexact.exact r hr a ha
  · intro hshown
    refine ⟨fun cycle hcycle a ha => ?_, fun r hr a ha => ?_, fun r hr a ha hon => ?_⟩
    · obtain ⟨b, -, -, hba⟩ := (collected_iff h.inv hsc).mp ⟨cycle, hcycle, ha⟩
      obtain ⟨c, -, hca⟩ := Relation.TransGen.tail'_iff.mp hba
      exact h.target hca
    · rw [collected_iff h.inv hsc]
      exact hshown r hr a ha
    · exact collected_once h.inv hsc ((hshown r hr a ha).mpr hon)

end Guard

-- ========================================================== distinct origins

section Distinct

variable {rt : Runtime} {live : List LiveRange} {mem : Memory} (h : Guarded rt live)
  (hshape : Shaped rt live) (hdist : DistinctOrigins live)

include h in
/-- A pointer recorded where it points is a recorded pointer. -/
theorem Linked.pointsTo {r s : LiveRange} (hl : Linked rt live mem r s) :
    PointsTo rt live mem r s := by
  obtain ⟨hr, hs, b, hb, slot, hslot, hin, hto⟩ := hl
  exact ⟨hr, hs, slot, ⟨b, h.inv.origins_lt _ b hb, hslot⟩, hin, hto⟩

include h hdist in
/-- Ranges of one object are one. -/
theorem isObject_inj {r s : LiveRange} {a : AllocId} (hr : r ∈ live) (hs : s ∈ live)
    (ha : IsObject rt r a) (ha' : IsObject rt s a) : r = s :=
  hdist.eq hr hs (h.origins_inj _ _ a ha ha')

include h hshape in
theorem seen_of_linked {r s : LiveRange} {a b : AllocId} (hl : Linked rt live mem r s)
    (ha : IsObject rt r a) (hb : IsObject rt s b) : Seen rt mem a b := by
  obtain ⟨hr, hs, b', hb', slot, hslot, hin, hto⟩ := hl
  have hbb : b' = b := Option.some.inj (hb'.symm.trans hb)
  subst hbb
  obtain ⟨hpointer, hlength⟩ := hshape s hs b' hb
  refine ⟨h.inv.maskFree.mem_objects.mpr ⟨s.base, (h.keys _ _).mpr (Or.inr ⟨s, hs, rfl, hb⟩)⟩,
    slot, hslot, ?_, h.find_eq hshape hr hin ha⟩
  rw [hpointer, hlength, ne_eq, doesItAlias_eq, not_not]
  exact hto

include h hshape hdist in
theorem linked_of_seen {r : LiveRange} {a b : AllocId} (hseen : Seen rt mem a b) (hr : r ∈ live)
    (ha : IsObject rt r a) : ∃ s ∈ live, IsObject rt s b ∧ Linked rt live mem r s := by
  obtain ⟨s, hs, hb⟩ := h.target hseen
  obtain ⟨-, slot, hslot, halias, hf⟩ := hseen
  obtain ⟨r', hr', hin, ha'⟩ := h.contains_of_find hshape (Or.inr (h.origins_pos _ a ha)) hf
  rw [isObject_inj h hdist hr' hr ha' ha] at hin
  obtain ⟨hpointer, hlength⟩ := hshape s hs b hb
  rw [hpointer, hlength, ne_eq, doesItAlias_eq, not_not] at halias
  exact ⟨s, hs, hb, hr, hs, b, hb, slot, hslot, hin, halias⟩

include h hshape hdist in
/-- A chain of shown links, from a live range on. -/
theorem linked_chain {r : LiveRange} {a b : AllocId} (hab : TransGen (Seen rt mem) a b)
    (hr : r ∈ live) (ha : IsObject rt r a) :
    ∃ s ∈ live, IsObject rt s b ∧ TransGen (Linked rt live mem) r s := by
  induction hab with
  | single hl =>
      obtain ⟨s, hs, hb, hlink⟩ := linked_of_seen h hshape hdist hl hr ha
      exact ⟨s, hs, hb, .single hlink⟩
  | tail _ hl ih =>
      obtain ⟨m, hm, hc, hchain⟩ := ih
      obtain ⟨s, hs, hb, hlink⟩ := linked_of_seen h hshape hdist hl hm hc
      exact ⟨s, hs, hb, hchain.tail hlink⟩

include h hshape in
theorem seen_chain {r s : LiveRange} {a b : AllocId} (hrs : TransGen (Linked rt live mem) r s)
    (ha : IsObject rt r a) (hb : IsObject rt s b) : TransGen (Seen rt mem) a b := by
  induction hrs generalizing b with
  | single hl => exact .single (seen_of_linked h hshape hl ha hb)
  | tail _ hl ih =>
      obtain ⟨c, hc⟩ := h.known _ hl.1
      exact (ih hc).tail (seen_of_linked h hshape hl hc hb)

include h hshape hdist in
/-- The cycle of an object is a cycle of live ranges, another one on
it. -/
theorem onSeenCycle_iff {r : LiveRange} {a : AllocId} (hr : r ∈ live) (ha : IsObject rt r a) :
    OnSeenCycle rt mem a ↔
      ∃ s ∈ live, s ≠ r ∧ TransGen (Linked rt live mem) r s
        ∧ TransGen (Linked rt live mem) s r := by
  constructor
  · rintro ⟨b, hne, hab, hba⟩
    obtain ⟨s, hs, hb, hrs⟩ := linked_chain h hshape hdist hab hr ha
    obtain ⟨r', hr', ha', hsr⟩ := linked_chain h hshape hdist hba hs hb
    rw [isObject_inj h hdist hr' hr ha' ha] at hsr
    refine ⟨s, hs, fun heq => hne ?_, hrs, hsr⟩
    rw [heq] at hb
    exact Option.some.inj (hb.symm.trans ha)
  · rintro ⟨s, hs, hne, hrs, hsr⟩
    obtain ⟨b, hb⟩ := h.known s hs
    refine ⟨b, fun heq => hne ?_, seen_chain h hshape hrs ha hb, seen_chain h hshape hsr hb ha⟩
    rw [heq] at hb
    exact isObject_inj h hdist hs hr hb ha

include h hshape hdist in
/-- Only missed cycles are left to rule out. -/
theorem cyclesShown_iff : CyclesShown rt live mem ↔ CyclesRecorded rt live mem := by
  constructor
  · intro hshown r hr hon
    obtain ⟨a, ha⟩ := h.known r hr
    exact (onSeenCycle_iff h hshape hdist hr ha).mp ((hshown r hr a ha).mpr hon)
  · intro hrec r hr a ha
    rw [onSeenCycle_iff h hshape hdist hr ha]
    constructor
    · rintro ⟨s, hs, -, hrs, hsr⟩
      have hmono : Linked rt live mem ≤ PointsTo rt live mem := fun x y hl => hl.pointsTo h
      exact Relation.TransGen.mono hmono r r (hrs.trans hsr)
    · exact hrec r hr

end Distinct

-- ================================================================ whole runs

section Runs

variable (env : Env)

/-- One entry of an allocator's run. -/
theorem Guarded.step {rt : Runtime} {live live' : List LiveRange} {e : ShadowEntry}
    (h : Guarded rt live) (hrun : AllocatorRun live [e] live') :
    Guarded (processEntry env rt e) live' := by
  have hkeyed : Keyed (processEntry env rt e) live' := keyed_run hrun h.toKeyed
  refine ⟨hkeyed, ?_⟩
  cases hrun with
  | add r hop hptr hsize horigin hdisj _ =>
      have hadd := processAddAlloc_spec env h.inv e
      rw [processEntry_allocAdd rt hop] at hkeyed ⊢
      have hself := hadd.origin_self
      have hne := hkeyed.origins_pos _ _ hself
      rw [hadd.others 0 hne.symm]
      exact h.sentinel
  | free r hmem hop hptr _ =>
      rw [((freeEntry_frame env h.toKeyed hmem hop hptr).2.2 0).2]
      exact h.sentinel
  | other hadd hfree _ =>
      rw [(sameTable_processEntry env rt hadd hfree).length]
      exact h.sentinel

theorem guarded_init : Guarded texasInit [] := ⟨keyed_init, rfl⟩

theorem guarded_steps (steps : List (ShadowEntry × Memory)) :
    ∀ {rt : Runtime} {live live' : List LiveRange}, Guarded rt live →
      AllocatorRun live (steps.map Prod.fst) live' →
      Guarded (processSteps env rt steps) live' := by
  induction steps with
  | nil =>
      intro rt live live' h hrun
      cases hrun
      exact h
  | cons step steps ih =>
      intro rt live live' h hrun
      have hfirst : AllocatorRun live ([step.1] ++ steps.map Prod.fst) live' := hrun
      obtain ⟨mid, hone, hrest⟩ := hfirst.split
      exact ih (h.step { env with mem := step.2 } hone) hrest

/-- The shapes stay right while origins are distinct. -/
theorem shaped_steps (steps : List (ShadowEntry × Memory)) :
    ∀ {rt : Runtime} {live live' : List LiveRange}, Guarded rt live → Shaped rt live →
      AllocatorRun live (steps.map Prod.fst) live' →
      (∀ pre mid, pre <+: steps.map Prod.fst → AllocatorRun live pre mid → DistinctOrigins mid) →
      Shaped (processSteps env rt steps) live' := by
  induction steps with
  | nil =>
      intro rt live live' _ hs hrun _
      cases hrun
      exact hs
  | cons step steps ih =>
      intro rt live live' h hs hrun hdist
      have hfirst : AllocatorRun live ([step.1] ++ steps.map Prod.fst) live' := hrun
      obtain ⟨mid, hone, hrest⟩ := hfirst.split
      have hshaped : Shaped (processEntry { env with mem := step.2 } rt step.1) mid := by
        apply shaped_run hone h.toKeyed hs
        intro pre mid' hpre hmid
        exact hdist pre mid' (hpre.trans (List.prefix_append [step.1] _)) hmid
      apply ih (h.step { env with mem := step.2 } hone) hshaped hrest
      intro pre mid' hpre hmid
      exact hdist (step.1 :: pre) mid' ((List.prefix_cons_inj step.1).mpr hpre) (hone.append hmid)

/-- For every run of a real allocator with any escapes, every memory and
every correct numbering of the components: the search collects exactly
the live ranges on a cycle, each in one component, when and only when
the links of the table show these cycles. Where no two ranges live at
the same time had the same origin, that is when every range on a cycle
is on one with another range, through slots recorded where they now
point. -/
theorem cyclesExact_iff (steps : List (ShadowEntry × Memory)) (live : List LiveRange)
    (hrun : AllocatorRun [] (steps.map Prod.fst) live) (mem : Memory) (component : Nat → Nat)
    (hsc : StrongComponents (generateConnectionGraph (processSteps env texasInit steps) mem).Edge
      (generateConnectionGraph (processSteps env texasInit steps) mem).vertices.length component) :
    let rt := processSteps env texasInit steps
    let cycles := (generateConnectionGraph rt mem).newCycles component
    (CyclesExact rt live mem cycles ↔ CyclesShown rt live mem)
      ∧ ((∀ pre mid, pre <+: steps.map Prod.fst → AllocatorRun [] pre mid → DistinctOrigins mid) →
        (CyclesExact rt live mem cycles ↔ CyclesRecorded rt live mem)) := by
  intro rt cycles
  have hguard : Guarded rt live := guarded_steps env steps guarded_init hrun
  refine ⟨hguard.exact_iff_shown hsc, fun hdist => ?_⟩
  have hshape : Shaped rt live :=
    shaped_steps env steps guarded_init (fun r hr => absurd hr List.not_mem_nil) hrun hdist
  have hlive : DistinctOrigins live := hdist _ live List.prefix_rfl hrun
  rw [hguard.exact_iff_shown hsc, cyclesShown_iff hguard hshape hlive]

end Runs

-- ================================================================ two blocks

/-- A block of 8 bytes. -/
def firstBlock : LiveRange := ⟨⟨100, 8, by decide, by decide⟩, 1⟩

/-- Another one, of origin `o`. -/
def secondBlock (o : UInt64) : LiveRange := ⟨⟨200, 8, by decide, by decide⟩, o⟩

/-- Each holds the other's address. -/
def twoPointers : Memory := fun p => if p = 100 then 200 else if p = 200 then 100 else 0

/-- Both are allocated, and both pointers recorded. -/
def twoBlockSteps (o : UInt64) : List (ShadowEntry × Memory) :=
  [(SlotWrite.allocAdd 100 8 1 none).entry, (SlotWrite.allocAdd 200 8 o none).entry,
    (SlotWrite.escapeAdd 100).entry, (SlotWrite.escapeAdd 200).entry].map fun e => (e, twoPointers)

theorem twoBlocks_run (o : UInt64) :
    AllocatorRun [] ((twoBlockSteps o).map Prod.fst) [secondBlock o, firstBlock] := by
  refine .add firstBlock rfl rfl rfl rfl (fun r hr => absurd hr List.not_mem_nil)
    (.add (secondBlock o) rfl rfl rfl rfl ?_
      (.other (by decide) (by decide) (.other (by decide) (by decide) (.nil _))))
  intro r hr
  rw [List.mem_singleton.mp hr]
  intro p hp hp'
  have h₁ : 200 ≤ p.toNat := (Range.contains_iff.mp hp).1
  have h₂ : p.toNat < 108 := (Range.contains_iff.mp hp').2
  omega

/-- Two blocks of one call site that point to each other: a cycle, and
nothing is collected. -/
theorem not_cyclesExact_sharedOrigin :
    let rt := processSteps (Env.ofTree .flat) texasInit (twoBlockSteps 1)
    let live := [secondBlock 1, firstBlock]
    let G := generateConnectionGraph rt twoPointers
    AllocatorRun [] ((twoBlockSteps 1).map Prod.fst) live
      ∧ StrongComponents G.Edge G.vertices.length id
      ∧ G.newCycles id = [] ∧ OnCycle rt live twoPointers firstBlock
      ∧ ¬ CyclesExact rt live twoPointers (G.newCycles id) := by
  intro rt live G
  have hfirst : firstBlock ∈ live := List.mem_cons_of_mem _ (List.mem_singleton.mpr rfl)
  have hsecond : secondBlock 1 ∈ live := List.mem_cons_self ..
  have hnone : G.newCycles id = [] := by decide
  have hon : OnCycle rt live twoPointers firstBlock := by
    have hthere : PointsTo rt live twoPointers firstBlock (secondBlock 1) :=
      ⟨hfirst, hsecond, 100, ⟨1, by decide, by decide⟩, by decide, by decide⟩
    have hback : PointsTo rt live twoPointers (secondBlock 1) firstBlock :=
      ⟨hsecond, hfirst, 200, ⟨1, by decide, by decide⟩, by decide, by decide⟩
    exact .tail (.single hthere) hback
  refine ⟨twoBlocks_run 1, ?_, hnone, hon, fun hexact => ?_⟩
  · -- the only edge is a loop, so no vertex reaches another
    have hedges : G.edges = {(1, 1)} := by decide
    have hstay : ∀ u v, ReflTransGen G.Edge u v → u = v := by
      intro u v huv
      induction huv with
      | refl => rfl
      | tail _ hstep ih =>
          unfold ConnectionGraph.Edge at hstep
          rw [hedges, Finset.mem_singleton, Prod.mk.injEq] at hstep
          rw [ih, hstep.1, hstep.2]
    intro u _ v _
    constructor
    · intro heq
      rw [show u = v from heq]
      exact ⟨.refl, .refl⟩
    · intro hreach
      exact hstay u v hreach.1
  · obtain ⟨cycle, hcycle, -⟩ := (hexact.exact firstBlock hfirst 1 (by unfold IsObject; decide)).mpr hon
    rw [hnone] at hcycle
    cases hcycle

/-- Two blocks of different call sites that point to each other: both
are collected. -/
theorem cyclesExact_twoSites :
    let rt := processSteps (Env.ofTree .flat) texasInit (twoBlockSteps 2)
    let live := [secondBlock 2, firstBlock]
    let G := generateConnectionGraph rt twoPointers
    let component : Nat → Nat := fun v => if v < 2 then 0 else 1
    AllocatorRun [] ((twoBlockSteps 2).map Prod.fst) live
      ∧ StrongComponents G.Edge G.vertices.length component
      ∧ CyclesExact rt live twoPointers (G.newCycles component) := by
  intro rt live G component
  have hrun := twoBlocks_run 2
  have hfirst : firstBlock ∈ live := List.mem_cons_of_mem _ (List.mem_singleton.mpr rfl)
  have hsecond : secondBlock 2 ∈ live := List.mem_cons_self ..
  have hsc : StrongComponents G.Edge G.vertices.length component := by
    have hedges : G.edges = {(0, 1), (1, 0)} := by decide
    have hstay : ∀ u v, ReflTransGen G.Edge u v → component u = component v := by
      intro u v huv
      induction huv with
      | refl => rfl
      | tail _ hstep ih =>
          unfold ConnectionGraph.Edge at hstep
          rw [hedges, Finset.mem_insert, Finset.mem_singleton, Prod.mk.injEq, Prod.mk.injEq] at hstep
          rcases hstep with ⟨rfl, rfl⟩ | ⟨rfl, rfl⟩
          · exact ih
          · exact ih
    have hreach : ∀ u < 3, ∀ v < 3, component u = component v → ReflTransGen G.Edge u v := by
      intro u hu v hv heq
      by_cases huv : u = v
      · rw [huv]
      · apply ReflTransGen.single
        show (u, v) ∈ G.edges
        rw [hedges, Finset.mem_insert, Finset.mem_singleton, Prod.mk.injEq, Prod.mk.injEq]
        simp only [component] at heq
        split at heq <;> split at heq <;> omega
    intro u hu v hv
    constructor
    · intro heq
      exact ⟨hreach u hu v hv heq, hreach v hv u hu heq.symm⟩
    · intro h
      exact hstay u v h.1
  refine ⟨hrun, hsc, ?_⟩
  have hdistinct : DistinctOrigins live := by
    refine List.pairwise_cons.mpr ⟨fun r hr => ?_, List.pairwise_singleton _ _⟩
    rw [List.mem_singleton.mp hr]
    decide
  apply ((cyclesExact_iff (Env.ofTree .flat) (twoBlockSteps 2) live hrun twoPointers component
    hsc).2 (hrun.distinct_prefix (by decide) hdistinct)).mpr
  have hthere : Linked rt live twoPointers firstBlock (secondBlock 2) :=
    ⟨hfirst, hsecond, 2, by unfold IsObject; decide, 100, by decide, by decide, by decide⟩
  have hback : Linked rt live twoPointers (secondBlock 2) firstBlock :=
    ⟨hsecond, hfirst, 1, by unfold IsObject; decide, 200, by decide, by decide, by decide⟩
  intro r hr _
  rcases List.mem_cons.mp hr with rfl | hr
  · exact ⟨firstBlock, hfirst, fun heq => absurd (congrArg LiveRange.origin heq) (by decide),
      .single hback, .single hthere⟩
  · rw [List.mem_singleton.mp hr]
    exact ⟨secondBlock 2, hsecond, fun heq => absurd (congrArg LiveRange.origin heq) (by decide),
      .single hthere, .single hback⟩

end Carmot.Texas
