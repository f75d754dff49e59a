/-
What the entries of a module are, with their ids, once the pass has
written its debug data.

Every id the pass hands to an instrumentation is one under which the
pretty printer finds the debug data of the entry's own instruction or
global (`idPoints_names`): the writer and the reader number the same
records, and a vector's entries keep the places they were numbered by.
The collected instructions are where the instrumentation can put code,
and none of them calls into the module (`collected_placed`,
`collected_library`): what the insertion was proved for is what the
visitor hands over.
-/
import Carmot.Pass.Proofs.DebugData
import Carmot.Pass.Proofs.EditedHooks
import Carmot.Pass.Proofs.Visitor

namespace Carmot.Pass

variable {Func Block Inst Value State : Type}

-- ================================================================ the file

theorem Entry.fits_of_getDebugData {e : Entry} {d : DebugData} (h : e.getDebugData = some d) :
    e.Fits := by
  unfold Entry.getDebugData DebugData.new at h
  split at h
  · cases h
  · next hlt => exact ⟨Nat.lt_of_not_le fun hle => hlt (.inl hle),
      Nat.lt_of_not_le fun hle => hlt (.inr hle)⟩

/-- Records are made of entries that fit. -/
theorem fits_of_createDebugDataForVector : ∀ (ps : List EntryPtr) (heap : EntryPtr → Entry)
    (made : List DebugData), ps.Nodup → createDebugDataForVector heap ps made ≠ none →
      ∀ p ∈ ps, (heap p).Fits := by
  intro ps
  induction ps with
  | nil => exact fun _ _ _ _ p hp => absurd hp List.not_mem_nil
  | cons p ps ih =>
      intro heap made hnodup hmade q hq
      obtain ⟨hp, hnodup⟩ := List.nodup_cons.mp hnodup
      unfold createDebugDataForVector at hmade
      simp only [Function.update_self, Entry.getDebugData_id] at hmade
      cases hd : (heap p).getDebugData with
      | none =>
          rw [hd] at hmade
          exact absurd rfl hmade
      | some d =>
          rw [hd] at hmade
          rcases List.mem_cons.mp hq with rfl | hq
          · exact Entry.fits_of_getDebugData hd
          · have hne : q ≠ p := fun heq => hp (heq ▸ hq)
            have hrest := ih _ _ hnodup hmade q hq
            rwa [Function.update_of_ne hne] at hrest

/-- The entries whose file was written are read back from it. -/
theorem underIds_of_written {heap heap' : EntryPtr → Entry} {allEntries : List (List EntryPtr)}
    {debugData : List DebugData} {file : List UInt8} (hnodup : allEntries.flatten.Nodup)
    (hcreate : createDebugData heap allEntries [] = some (heap', debugData))
    (hwrite : writeDebugData debugData = some file) :
    heap' = numbered heap 0 allEntries.flatten
      ∧ UnderIds heap' allEntries.flatten (getDebugData file) := by
  have hfits : ∀ p ∈ allEntries.flatten, (heap p).Fits := by
    apply fits_of_createDebugDataForVector _ heap [] hnodup
    rw [← createDebugData_flatten, hcreate]
    exact Option.some_ne_none _
  obtain ⟨ds, hds, hmap⟩ := createDebugDataForVector_eq allEntries.flatten heap [] hnodup hfits
  rw [← createDebugData_flatten, hcreate] at hds
  injection hds with hds
  injection hds with hheap hdata
  refine ⟨hheap, ?_⟩
  have hle : allEntries.flatten.length ≤ intMax := by
    by_contra hgt
    have hlen : ds.length = allEntries.flatten.length := by
      rw [← List.length_map (f := some), hmap, List.length_map]
    rw [hdata, List.nil_append, writeDebugData,
      writeRecords_of_gt ds 0 (Nat.zero_le _) (by omega)] at hwrite
    cases hwrite
  obtain ⟨heap'', debugData', file', hcreate', hwrite', hunder⟩ := readBack_of_le hnodup hfits hle
  rw [hcreate] at hcreate'
  injection hcreate' with hcreate'
  injection hcreate' with hheap' hdata'
  rw [← hdata', hwrite] at hwrite'
  rw [hheap', Option.some_inj.mp hwrite']
  exact hunder

/-- Under the id the file has the debug data. -/
def Names (file : List UInt8) (id : UInt64) (debug : Entry) : Prop :=
  ∃ d, debug.getDebugData = some d ∧ getDebugData file id = some d

-- ================================================================= the ids

section Ids

theorem flatten_entryPtrs {E : Type} (allEntries : List (List E)) : ∀ base : Nat,
    (entryPtrs base allEntries).flatten = List.range' base allEntries.flatten.length := by
  induction allEntries with
  | nil => exact fun _ => rfl
  | cons entries allEntries ih =>
      intro base
      unfold entryPtrs
      rw [List.flatten_cons, ih, List.flatten_cons, List.length_append,
        ← List.range'_append_1]

variable {heap : EntryPtr → Entry} {allEntries : List (List Entry)} {debugData : List DebugData}
  {file : List UInt8}

/-- The id at a place has the debug data that is there. -/
theorem names_of_written
    (hcreate : createDebugData (entryHeap allEntries) (entryPtrs 0 allEntries) []
      = some (heap, debugData))
    (hwrite : writeDebugData debugData = some file) {p : EntryPtr} {debug : Entry}
    (hp : allEntries.flatten[p]? = some debug) : Names file (heap p).id debug := by
  have hptrs := flatten_entryPtrs allEntries 0
  obtain ⟨hheap, hunder⟩ := underIds_of_written
    (by rw [hptrs]; exact List.nodup_range') hcreate hwrite
  have hmem : p ∈ (entryPtrs 0 allEntries).flatten := by
    rw [hptrs, List.mem_range'_1]
    have hlt := (List.getElem?_eq_some_iff.mp hp).1
    omega
  obtain ⟨d, hd, hread⟩ := hunder.records p hmem
  refine ⟨d, ?_, hread⟩
  rw [← hd, hheap]
  unfold numbered
  rw [if_pos hmem, Entry.getDebugData_id]
  unfold entryHeap
  rw [List.getD_eq_getElem?_getD, hp]
  rfl

/-- The entries of a vector keep their places. -/
theorem names_withIds {E : Type}
    (hcreate : createDebugData (entryHeap allEntries) (entryPtrs 0 allEntries) []
      = some (heap, debugData))
    (hwrite : writeDebugData debugData = some file) {entries : List (Collected E)}
    (front : List (List Entry)) {back : List (List Entry)}
    (hall : allEntries = front ++ entries.map Collected.debug :: back) {base : Nat}
    (hbase : front.flatten.length = base) {k : Nat} (hk : k < entries.length) :
    Names file (heap (base + k)).id entries[k].debug := by
  apply names_of_written hcreate hwrite
  rw [hall, List.flatten_append, List.flatten_cons,
    List.getElem?_append_right (by omega), hbase, Nat.add_sub_cancel_left,
    List.getElem?_append_left (by rw [List.length_map]; exact hk), List.getElem?_map,
    List.getElem?_eq_getElem hk]
  rfl

theorem mem_withIds {E : Type} {setId : E → UInt64 → E}
    (hcreate : createDebugData (entryHeap allEntries) (entryPtrs 0 allEntries) []
      = some (heap, debugData))
    (hwrite : writeDebugData debugData = some file) {entries : List (Collected E)}
    (front : List (List Entry)) {back : List (List Entry)}
    (hall : allEntries = front ++ entries.map Collected.debug :: back) {base : Nat}
    (hbase : front.flatten.length = base) {e : E} (he : e ∈ withIds setId heap base entries) :
    ∃ c ∈ entries, ∃ id, e = setId c.entry id ∧ Names file id c.debug := by
  obtain ⟨k, hk, rfl⟩ := List.mem_mapIdx.mp he
  exact ⟨entries[k], List.getElem_mem hk, _, rfl,
    names_withIds hcreate hwrite front hall hbase hk⟩

/-- Every entry of a vector is handed on. -/
theorem exists_withIds {E : Type} (setId : E → UInt64 → E)
    (hcreate : createDebugData (entryHeap allEntries) (entryPtrs 0 allEntries) []
      = some (heap, debugData))
    (hwrite : writeDebugData debugData = some file) {entries : List (Collected E)}
    (front : List (List Entry)) {back : List (List Entry)}
    (hall : allEntries = front ++ entries.map Collected.debug :: back) {base : Nat}
    (hbase : front.flatten.length = base) {c : Collected E} (hc : c ∈ entries) :
    ∃ id, setId c.entry id ∈ withIds setId heap base entries ∧ Names file id c.debug := by
  obtain ⟨k, hk, rfl⟩ := List.mem_iff_getElem.mp hc
  exact ⟨_, List.mem_mapIdx.mpr ⟨k, hk, rfl⟩, names_withIds hcreate hwrite front hall hbase hk⟩

end Ids

-- ============================================================ the entries

/-- Where an entry's calls go, and the debug data it may have there: of
the instruction, or of a global. -/
def ModuleInfo.At (P : Code Func Block Inst) (info : ModuleInfo Func Inst Value) :
    InsertPoint Inst → Entry → Prop
  | .inst inst, debug => info.Entered P inst debug
  | .firstInstOfMain, debug =>
      ∃ global ∈ info.globals, ∃ var, global.debugInfo.head? = some (some var) ∧ debug = var.debug

/-- Where the calls of an allocation's entry go. -/
def AllocEntry.point (e : AllocEntry Inst Value) : InsertPoint Inst :=
  e.inst.elim .firstInstOfMain .inst

/-- The ids that are handed to instrumentations, and where. -/
def Visited.idPoints (V : Visited Func Inst Value) : List (UInt64 × InsertPoint Inst) :=
  (V.allocations.map fun e => (e.id, e.point)) ++ (V.callocs.map fun e => (e.id, .inst e.inst))
    ++ (V.reallocs.map fun e => (e.id, .inst e.inst))
    ++ (V.unknowns.map fun e => (e.id, .inst e.inst))
    ++ (V.accesses.map fun e => (e.id, .inst e.inst))

section Entries

variable [DecidableEq Func] [DecidableEq Inst] {P : Code Func Block Inst}
  {info : ModuleInfo Func Inst Value}

theorem visitModule_entries {sets : VisitorSets Func Inst} {IV : MyInstVisitor Func Inst Value}
    (hvisit : visitModule P info sets = some IV) : IV.Entries (info.Entered P) := by
  have hone := fun inst => (contribution_entries P info sets inst).mono (R := info.Entered P)
    fun _ _ h => h.2
  have hmem : ∀ {E : Type} (vector : MyInstVisitor Func Inst Value → List E), Appends vector →
      ∀ e ∈ vector IV, ∃ inst, e ∈ vector (contribution P info sets inst) := by
    intro E vector hvector e he
    obtain ⟨inst, -, he⟩ := (mem_visitModule P info sets hvisit vector hvector).mp he
    exact ⟨inst, he⟩
  constructor
  · intro e he
    obtain ⟨inst, he⟩ := hmem MyInstVisitor.allocations ⟨rfl, fun _ _ => rfl⟩ e he
    exact (hone inst).allocations e he
  · intro e he
    obtain ⟨inst, he⟩ := hmem MyInstVisitor.callocs ⟨rfl, fun _ _ => rfl⟩ e he
    exact (hone inst).callocs e he
  · intro e he
    obtain ⟨inst, he⟩ := hmem MyInstVisitor.reallocs ⟨rfl, fun _ _ => rfl⟩ e he
    exact (hone inst).reallocs e he
  · intro e he
    obtain ⟨inst, he⟩ := hmem MyInstVisitor.unknowns ⟨rfl, fun _ _ => rfl⟩ e he
    exact (hone inst).unknowns e he
  · intro e he
    obtain ⟨inst, he⟩ := hmem MyInstVisitor.stores ⟨rfl, fun _ _ => rfl⟩ e he
    exact (hone inst).stores e he
  · intro e he
    obtain ⟨inst, he⟩ := hmem MyInstVisitor.loads ⟨rfl, fun _ _ => rfl⟩ e he
    exact (hone inst).loads e he

omit [DecidableEq Func] [DecidableEq Inst] in
/-- Filtering drops entries and nothing else. -/
theorem filterLibraryCalls_subset {isTheLibraryFunctionPure : Func → Bool} :
    ∀ {unknowns filteredUnknowns : List (Collected (UnknownEntry Inst))},
      filterLibraryCalls info isTheLibraryFunctionPure unknowns = some filteredUnknowns →
        filteredUnknowns ⊆ unknowns := by
  intro unknowns
  induction unknowns with
  | nil =>
      intro filteredUnknowns h
      rw [← Option.some_inj.mp h]
      exact List.nil_subset _
  | cons elem unknowns ih =>
      intro filteredUnknowns h
      unfold filterLibraryCalls at h
      split at h
      · obtain ⟨rest, hrest, rfl⟩ := Option.map_eq_some_iff.mp h
        split
        · exact List.subset_cons_of_subset elem (ih hrest)
        · exact List.cons_subset_cons elem (ih hrest)
      · cases h

omit [DecidableEq Func] [DecidableEq Inst] in
theorem At_globals {e : Collected (AllocEntry Inst Value)}
    (he : e ∈ info.globals.filterMap GlobalVariable.entry) : info.At P e.entry.point e.debug := by
  obtain ⟨global, hglobal, hentry⟩ := List.mem_filterMap.mp he
  unfold GlobalVariable.entry at hentry
  split at hentry
  · cases hentry
  · split at hentry
    · next var rest hdebug =>
        rw [← Option.some_inj.mp hentry]
        exact ⟨global, hglobal, var, by rw [hdebug]; rfl, rfl⟩
    · cases hentry
    · cases hentry

variable {v : VisitorOptions Func Inst Value}

/-- The steps of the first half of `runOnModule`. -/
theorem collect_eq {IV : MyInstVisitor Func Inst Value} (hcollect : collect P info v = some IV) :
    ∃ IV₀, visitModule P info v.sets = some IV₀
      ∧ filterLibraryCalls info v.isTheLibraryFunctionPure IV₀.unknowns = some IV.unknowns
      ∧ IV = { IV₀ with
          unknowns := IV.unknowns
          allocations := getGlobals info.globals IV₀.allocations } := by
  unfold collect at hcollect
  split at hcollect
  · cases hcollect
  · next IV₀ hvisit =>
      split at hcollect
      · cases hcollect
      · next unknowns hunknowns =>
          rw [← Option.some_inj.mp hcollect]
          exact ⟨IV₀, hvisit, hunknowns, rfl⟩

theorem collectAndWrite_eq {V : Visited Func Inst Value} {file : List UInt8}
    (hcollect : collectAndWrite P info v = some (V, file)) :
    ∃ IV heap debugData, collect P info v = some IV
      ∧ createDebugData (entryHeap IV.allEntries) (entryPtrs 0 IV.allEntries) []
        = some (heap, debugData)
      ∧ writeDebugData debugData = some file
      ∧ V = IV.visited heap v.order v.disableStateUsesInstrumentation
          v.uniqueCallstackFunctions := by
  unfold collectAndWrite at hcollect
  split at hcollect
  · cases hcollect
  · next IV hIV =>
      split at hcollect
      · cases hcollect
      · next heap debugData hcreate =>
          split at hcollect
          · cases hcollect
          · next file' hwrite =>
              injection Option.some_inj.mp hcollect with hV hfile
              rw [hfile] at hwrite
              exact ⟨IV, heap, debugData, hIV, hcreate, hwrite, hV.symm⟩

end Entries

-- =========================================================== what is visited

/-- The entries that are instrumented are those of the visitor, each
under an id that has its debug data. -/
structure Visited.Numbers (V : Visited Func Inst Value) (IV : MyInstVisitor Func Inst Value)
    (file : List UInt8) : Prop where
  allocations : ∀ e ∈ V.allocations, ∃ c ∈ IV.allocations,
    ∃ id, e = { c.entry with id := id } ∧ Names file id c.debug
  callocs : ∀ e ∈ V.callocs, ∃ c ∈ IV.callocs,
    ∃ id, e = { c.entry with id := id } ∧ Names file id c.debug
  reallocs : ∀ e ∈ V.reallocs, ∃ c ∈ IV.reallocs,
    ∃ id, e = { c.entry with id := id } ∧ Names file id c.debug
  unknowns : ∀ e ∈ V.unknowns, ∃ c ∈ IV.unknowns,
    ∃ id, e = { c.entry with id := id } ∧ Names file id c.debug
  accesses : ∀ e ∈ V.accesses, ∃ c ∈ IV.stores ++ IV.loads,
    ∃ id, e = { c.entry with id := id } ∧ Names file id c.debug

/-- The order of a hash map's entries. -/
def VisitorOptions.Ordered (v : VisitorOptions Func Inst Value) : Prop :=
  ∀ entries, (v.order entries).Perm entries

section Numbers

variable {IV : MyInstVisitor Func Inst Value} {heap : EntryPtr → Entry}
  {debugData : List DebugData} {file : List UInt8} {v : VisitorOptions Func Inst Value}

theorem visited_numbers
    (hcreate : createDebugData (entryHeap IV.allEntries) (entryPtrs 0 IV.allEntries) []
      = some (heap, debugData))
    (hwrite : writeDebugData debugData = some file) (horder : v.Ordered) :
    (IV.visited heap v.order v.disableStateUsesInstrumentation v.uniqueCallstackFunctions).Numbers
      IV file := by
  let allocations := IV.allocations.map Collected.debug
  let callocs := IV.callocs.map Collected.debug
  let reallocs := IV.reallocs.map Collected.debug
  let unknowns := IV.unknowns.map Collected.debug
  let stores := IV.stores.map Collected.debug
  unfold MyInstVisitor.visited
  dsimp only
  constructor
  · dsimp only
    intro e he
    exact mem_withIds hcreate hwrite [] rfl rfl he
  · dsimp only
    intro e he
    refine mem_withIds hcreate hwrite [allocations] rfl ?_ he
    simp [allocations]
  · dsimp only
    intro e he
    refine mem_withIds hcreate hwrite [allocations, callocs] rfl ?_ he
    simp [allocations, callocs]
  · dsimp only
    intro e he
    refine mem_withIds hcreate hwrite [allocations, callocs, reallocs] rfl ?_ he
    simp [allocations, callocs, reallocs, Nat.add_assoc]
  · dsimp only
    intro e he
    split at he
    · cases he
    · rcases List.mem_append.mp ((horder _).mem_iff.mp he) with he | he
      · obtain ⟨c, hc, hid⟩ := mem_withIds hcreate hwrite
          [allocations, callocs, reallocs, unknowns] rfl
          (by simp [allocations, callocs, reallocs, unknowns, Nat.add_assoc]) he
        exact ⟨c, List.mem_append_left _ hc, hid⟩
      · obtain ⟨c, hc, hid⟩ := mem_withIds hcreate hwrite
          [allocations, callocs, reallocs, unknowns, stores] rfl
          (by simp [allocations, callocs, reallocs, unknowns, stores, Nat.add_assoc]) he
        exact ⟨c, List.mem_append_right _ hc, hid⟩

end Numbers

section Collected

variable [DecidableEq Func] [DecidableEq Inst] {P : Code Func Block Inst}
  {info : ModuleInfo Func Inst Value} {v : VisitorOptions Func Inst Value}
  {V : Visited Func Inst Value} {file : List UInt8}

/-- Under every id that is handed to an instrumentation the file has
the debug data of what is there. -/
theorem idPoints_names (hcollect : collectAndWrite P info v = some (V, file))
    (horder : v.Ordered) :
    ∀ q ∈ V.idPoints, ∃ debug, info.At P q.2 debug ∧ Names file q.1 debug := by
  obtain ⟨IV, heap, debugData, hIV, hcreate, hwrite, rfl⟩ := collectAndWrite_eq hcollect
  obtain ⟨IV₀, hvisit, hunknowns, hIV₀⟩ := collect_eq hIV
  have hentries := visitModule_entries hvisit
  have hnumbers := visited_numbers hcreate hwrite horder
  rw [hIV₀] at hnumbers
  intro q hq
  unfold Visited.idPoints at hq
  simp only [List.mem_append, List.mem_map] at hq
  rcases hq with (((hq | hq) | hq) | hq) | hq
  · obtain ⟨e, he, rfl⟩ := hq
    obtain ⟨c, hc, id, rfl, hnames⟩ := hnumbers.allocations e (by rw [← hIV₀]; exact he)
    refine ⟨c.debug, ?_, hnames⟩
    rcases List.mem_append.mp hc with hc | hc
    · obtain ⟨inst, hinst, hentered⟩ := hentries.allocations c hc
      show info.At P c.entry.point c.debug
      unfold AllocEntry.point
      rw [hinst]
      exact hentered
    · exact At_globals hc
  · obtain ⟨e, he, rfl⟩ := hq
    obtain ⟨c, hc, id, rfl, hnames⟩ := hnumbers.callocs e (by rw [← hIV₀]; exact he)
    exact ⟨c.debug, hentries.callocs c hc, hnames⟩
  · obtain ⟨e, he, rfl⟩ := hq
    obtain ⟨c, hc, id, rfl, hnames⟩ := hnumbers.reallocs e (by rw [← hIV₀]; exact he)
    exact ⟨c.debug, hentries.reallocs c hc, hnames⟩
  · obtain ⟨e, he, rfl⟩ := hq
    obtain ⟨c, hc, id, rfl, hnames⟩ := hnumbers.unknowns e (by rw [← hIV₀]; exact he)
    exact ⟨c.debug, hentries.unknowns c (filterLibraryCalls_subset hunknowns hc), hnames⟩
  · obtain ⟨e, he, rfl⟩ := hq
    obtain ⟨c, hc, id, rfl, hnames⟩ := hnumbers.accesses e (by rw [← hIV₀]; exact he)
    refine ⟨c.debug, ?_, hnames⟩
    rcases List.mem_append.mp hc with hc | hc
    · exact hentries.stores c hc
    · exact hentries.loads c hc

/-- The loads and stores with an entry. -/
theorem mem_accesses {sets : VisitorSets Func Inst} {IV : MyInstVisitor Func Inst Value}
    (hvisit : visitModule P info sets = some IV) {c : Collected (AccessEntry Inst Value)} :
    c ∈ IV.stores ++ IV.loads
      ↔ ∃ inst ∈ P.allInsts, sets.visits P inst = true ∧ info.access inst = some c := by
  have hone : ∀ inst, c ∈ (contribution P info sets inst).stores
        ∨ c ∈ (contribution P info sets inst).loads
      ↔ sets.visits P inst = true ∧ info.access inst = some c := by
    intro inst
    rw [← List.mem_append, contribution_accesses]
    by_cases hskip : sets.visits P inst = true
    · rw [if_pos hskip, Option.mem_toList]
      exact ⟨fun h => ⟨hskip, h⟩, fun h => h.2⟩
    · rw [if_neg hskip]
      exact ⟨fun h => absurd h List.not_mem_nil, fun h => absurd h.1 hskip⟩
  rw [List.mem_append, mem_visitModule P info sets hvisit MyInstVisitor.stores ⟨rfl, fun _ _ => rfl⟩,
    mem_visitModule P info sets hvisit MyInstVisitor.loads ⟨rfl, fun _ _ => rfl⟩, ← exists_or]
  apply exists_congr
  intro inst
  rw [← and_or_left, hone]

omit [DecidableEq Func] [DecidableEq Inst] in
theorem ModuleInfo.inst_of_access {inst : Inst} {c : Collected (AccessEntry Inst Value)}
    (hc : info.access inst = some c) :
    c.entry.inst = inst ∧ (info.instClass inst).isAccess = true := by
  unfold ModuleInfo.access at hc
  split at hc <;> cases hc
  · next hclass => exact ⟨rfl, by rw [hclass]; rfl⟩
  · next hclass => exact ⟨rfl, by rw [hclass]; rfl⟩

end Collected

-- ================================================== where it can be inserted

/-- What the verifier and the front end guarantee: the blocks of a
function are its own, an instruction is where its class can be, and no
invoke ends an object. -/
structure ModuleInfo.Describes (P : Code Func Block Inst) (info : ModuleInfo Func Inst Value) :
    Prop where
  nodup_blocks : ∀ f ∈ P.functions, (P.blocks f).Nodup
  mem_blocks : ∀ f ∈ P.functions, ∀ b, b ∈ P.blocks f ↔ P.getFunction b = f
  call : ∀ inst getCalledFunction getOperand,
    info.instClass inst = .call getCalledFunction getOperand → (P.flowKind inst).isSite = true
  access : ∀ inst, (info.instClass inst).isAccess = true → P.flowKind inst = .other
  alloca : ∀ inst getAllocatedType metadata,
    info.instClass inst = .alloca getAllocatedType metadata → P.flowKind inst = .other
  dealloc : ∀ inst, info.IsDealloc P inst → P.flowKind inst = .other

/-- A call into the module is of a function with a body, the called one
if it is direct. -/
def Meaning.Follows (m : Meaning Func Block Inst Value State) (P : Code Func Block Inst)
    (info : ModuleInfo Func Inst Value) : Prop :=
  ∀ inst s f, (m.exec inst s).2 = .call f →
    f ∈ P.functions ∧ ∃ getCalledFunction getOperand,
      info.instClass inst = .call getCalledFunction getOperand ∧ ∀ fp ∈ getCalledFunction, fp = f

section Placed

variable {P : Code Func Block Inst} {info : ModuleInfo Func Inst Value}

theorem ModuleInfo.Describes.isSite (hinfo : info.Describes P) {inst : Inst} {debug : Entry}
    (h : info.Entered P inst debug) : (P.flowKind inst).isSite = true := by
  have hother : P.flowKind inst = .other → (P.flowKind inst).isSite = true := by
    intro heq
    rw [heq]
    rfl
  have hposition := h.position
  unfold ModuleInfo.position at hposition
  cases hclass : info.instClass inst with
  | call getCalledFunction getOperand => exact hinfo.call inst _ _ hclass
  | load getPointerOperand => exact hother (hinfo.access inst (by rw [hclass]; rfl))
  | store getPointerOperand valueType => exact hother (hinfo.access inst (by rw [hclass]; rfl))
  | alloca getAllocatedType metadata => exact hother (hinfo.alloca inst _ _ hclass)
  | ret | other =>
      rw [hclass] at hposition
      cases hposition

theorem Meaning.Follows.not_call {m : Meaning Func Block Inst Value State} (hm : m.Follows P info)
    {inst : Inst}
    (hlibrary : ∀ getCalledFunction getOperand,
      info.instClass inst = .call getCalledFunction getOperand →
        ∃ fp, getCalledFunction = some fp ∧ fp ∉ P.functions) (s : State) (f : Func) :
    (m.exec inst s).2 ≠ .call f := by
  intro hcall
  obtain ⟨hf, called, operand, hclass, hdirect⟩ := hm inst s f hcall
  obtain ⟨fp, rfl, hfp⟩ := hlibrary called operand hclass
  exact hfp (hdirect fp rfl ▸ hf)

variable [DecidableEq Func] [DecidableEq Inst] {v : VisitorOptions Func Inst Value}
  {V : Visited Func Inst Value} {file : List UInt8}

/-- The instructions of the entries and the deallocations. -/
theorem entered_of_collected (hcollect : collectAndWrite P info v = some (V, file))
    (horder : v.Ordered) :
    (∀ e ∈ V.allocations, ∀ inst ∈ e.inst, ∃ debug, info.Entered P inst debug)
      ∧ (∀ e ∈ V.callocs, ∃ debug, info.Entered P e.inst debug)
      ∧ (∀ e ∈ V.reallocs, ∃ debug, info.Entered P e.inst debug)
      ∧ (∀ e ∈ V.unknowns, ∃ debug, info.Entered P e.inst debug)
      ∧ (∀ e ∈ V.accesses, ∃ debug, info.Entered P e.inst debug) := by
  have hnames := idPoints_names hcollect horder
  have hat : ∀ (id : UInt64) (inst : Inst), (id, InsertPoint.inst inst) ∈ V.idPoints →
      ∃ debug, info.Entered P inst debug := by
    intro id inst hq
    obtain ⟨debug, hentered, -⟩ := hnames _ hq
    exact ⟨debug, hentered⟩
  unfold Visited.idPoints at hat
  simp only [List.mem_append, List.mem_map] at hat
  refine ⟨?_, ?_, ?_, ?_, ?_⟩
  · intro e he inst hinst
    refine hat e.id inst (.inl (.inl (.inl (.inl ⟨e, he, ?_⟩))))
    unfold AllocEntry.point
    rw [Option.mem_def.mp hinst]
    rfl
  · exact fun e he => hat e.id e.inst (.inl (.inl (.inl (.inr ⟨e, he, rfl⟩))))
  · exact fun e he => hat e.id e.inst (.inl (.inl (.inr ⟨e, he, rfl⟩)))
  · exact fun e he => hat e.id e.inst (.inl (.inr ⟨e, he, rfl⟩))
  · exact fun e he => hat e.id e.inst (.inr ⟨e, he, rfl⟩)

theorem isDealloc_of_collected (hcollect : collectAndWrite P info v = some (V, file)) :
    ∀ d ∈ V.deallocs, info.IsDealloc P d.1 := by
  obtain ⟨IV, heap, debugData, hIV, -, -, rfl⟩ := collectAndWrite_eq hcollect
  obtain ⟨IV₀, hvisit, -, hIV₀⟩ := collect_eq hIV
  intro d hd
  change d ∈ IV.deallocs at hd
  rw [hIV₀] at hd
  obtain ⟨inst, -, hd⟩ :=
    (mem_visitModule P info v.sets hvisit MyInstVisitor.deallocs ⟨rfl, fun _ _ => rfl⟩).mp hd
  obtain ⟨heq, hdealloc⟩ := contribution_deallocs d hd
  rw [heq]
  exact hdealloc

theorem isAccess_of_collected (hcollect : collectAndWrite P info v = some (V, file))
    (horder : v.Ordered) : ∀ e ∈ V.accesses, (info.instClass e.inst).isAccess = true := by
  obtain ⟨IV, heap, debugData, hIV, hcreate, hwrite, rfl⟩ := collectAndWrite_eq hcollect
  obtain ⟨IV₀, hvisit, -, hIV₀⟩ := collect_eq hIV
  intro e he
  obtain ⟨c, hc, id, rfl, -⟩ := (visited_numbers hcreate hwrite horder).accesses e he
  rw [hIV₀] at hc
  obtain ⟨inst, -, -, haccess⟩ := (mem_accesses hvisit).mp hc
  obtain ⟨heq, hclass⟩ := ModuleInfo.inst_of_access haccess
  show (info.instClass c.entry.inst).isAccess = true
  rw [heq]
  exact hclass

/-- The collected instructions are where code can be put. -/
theorem collected_placed (hcollect : collectAndWrite P info v = some (V, file))
    (horder : v.Ordered) (hinfo : info.Describes P) : V.Placed P := by
  obtain ⟨hallocations, hcallocs, hreallocs, hunknowns, -⟩ := entered_of_collected hcollect horder
  refine ⟨?_, ?_, ?_, ?_, ?_, ?_⟩
  · intro e he inst hinst
    obtain ⟨debug, h⟩ := hallocations e he inst hinst
    exact hinfo.isSite h
  · intro e he
    obtain ⟨debug, h⟩ := hcallocs e he
    exact hinfo.isSite h
  · intro e he
    obtain ⟨debug, h⟩ := hreallocs e he
    exact hinfo.isSite h
  · intro e he
    obtain ⟨debug, h⟩ := hunknowns e he
    exact hinfo.isSite h
  · exact fun e he => hinfo.access e.inst (isAccess_of_collected hcollect horder e he)
  · exact fun d hd => hinfo.dealloc d.1 (isDealloc_of_collected hcollect d hd)

omit [DecidableEq Func] [DecidableEq Inst] in
theorem mem_allInsts (hinfo : info.Describes P) {inst : Inst}
    (hfunction : P.getFunction (P.getParent inst) ∈ P.functions) : inst ∈ P.allInsts :=
  List.mem_flatMap.mpr ⟨_, hfunction, List.mem_flatMap.mpr
    ⟨_, (hinfo.mem_blocks _ hfunction _).mpr rfl, (P.mem_insts _ _).mpr rfl⟩⟩

/-- The stack variables of the functions to instrument that have debug
data are handed on. -/
theorem local_of_collected (hcollect : collectAndWrite P info v = some (V, file))
    (hinfo : info.Describes P) {inst : Inst} {getAllocatedType : VarType}
    {metadata : AllocaMetadata} {debug : Entry}
    (hfunction : P.getFunction (P.getParent inst) ∈ P.functions)
    (hinstrument : P.getFunction (P.getParent inst) ∈ v.sets.functionsToInstrumentAllocaInst)
    (hclass : info.instClass inst = .alloca getAllocatedType metadata)
    (hdebug : allocaDebug (info.getDebugLoc inst) metadata = .entry debug) :
    ∃ id, ⟨some inst, info.value inst, .static (visitAllocaInstSize getAllocatedType), id⟩
        ∈ V.allocations ∧ Names file id debug := by
  obtain ⟨IV, heap, debugData, hIV, hcreate, hwrite, rfl⟩ := collectAndWrite_eq hcollect
  obtain ⟨IV₀, hvisit, -, hIV₀⟩ := collect_eq hIV
  have hmem : ⟨⟨some inst, info.value inst, .static (visitAllocaInstSize getAllocatedType), 0⟩,
      debug⟩ ∈ IV.allocations := by
    rw [hIV₀]
    apply List.mem_append_left
    rw [mem_visitModule P info v.sets hvisit MyInstVisitor.allocations ⟨rfl, fun _ _ => rfl⟩]
    refine ⟨inst, mem_allInsts hinfo hfunction, ?_⟩
    rw [contribution_alloca hclass hinstrument hdebug]
    exact List.mem_singleton.mpr rfl
  exact exists_withIds (fun e id => { e with id := id }) hcreate hwrite [] rfl rfl hmem

/-- No collected instruction calls into the module. -/
theorem collected_library {m : Meaning Func Block Inst Value State}
    (hcollect : collectAndWrite P info v = some (V, file)) (horder : v.Ordered)
    (hm : m.Follows P info) : V.Library P m := by
  obtain ⟨hallocations, hcallocs, hreallocs, hunknowns, haccesses⟩ :=
    entered_of_collected hcollect horder
  refine ⟨fun inst s f hcall => (hm inst s f hcall).1, ?_⟩
  intro inst hinst
  have hentered : (∃ debug, info.Entered P inst debug) → ∀ s f, (m.exec inst s).2 ≠ .call f :=
    fun ⟨_, h⟩ => hm.not_call h.library
  unfold Visited.insts at hinst
  simp only [List.mem_append, List.mem_map, List.mem_filterMap] at hinst
  rcases hinst with ((((hinst | hinst) | hinst) | hinst) | hinst) | hinst
  · obtain ⟨e, he, heq⟩ := hinst
    exact hentered (hallocations e he inst heq)
  · obtain ⟨e, he, rfl⟩ := hinst
    exact hentered (hcallocs e he)
  · obtain ⟨e, he, rfl⟩ := hinst
    exact hentered (hreallocs e he)
  · obtain ⟨e, he, rfl⟩ := hinst
    exact hentered (hunknowns e he)
  · obtain ⟨e, he, rfl⟩ := hinst
    exact hentered (haccesses e he)
  · obtain ⟨d, hd, rfl⟩ := hinst
    obtain ⟨fp, operand, hclass, hfp, -⟩ := isDealloc_of_collected hcollect d hd
    apply hm.not_call
    intro called operand' heq
    rw [hclass] at heq
    injection heq with heq
    exact ⟨fp, heq.symm, hfp⟩

end Placed

end Carmot.Pass
