/-
The parent pointers of the ROI states never run in a circle.

`Represents` ties the objects to the producer's list of states: the
addresses in the order of creation, each object with the id of its
place, the name and line of the listed state and the address of its
parent. Every call keeps it (`Represents.step`), so what holds of the
list holds of the objects. New objects have addresses of their own, of
64 bits and not null, so there are fewer of them than ids, and
`currentStateID` never wraps (`length_lt`).

The walks of the source are walks along these pointers. A walk that ends
gives the bounded recursions and loops their result, which on the links
of a `StateTree` is what Shadow.lean computes from the chain; and the
ids on a walk are the chain (`walk_ids_run`).
-/
import Mathlib.Data.List.Perm.Subperm
import Carmot.Texas.Proofs.Nesting
import Carmot.Texas.States

namespace Carmot.Texas

open Carmot.Lib (SortedMap getElem?_concat_eq_some walk eq_nil_of_walk_none eq_cons_of_walk Descends)

-- ================================================================= the walks

section Walks

variable {parent : StatePtr → Option StatePtr} {env : Env} {e : ShadowEntry}

/-- The recursion of `processAddToState`, where the walk along the
parents ends. -/
theorem processAddToStateCalls_eq (depth : Nat) : ∀ {rt : Runtime} {p : StatePtr}
    {l : List StatePtr}, walk parent depth (some p) = some l →
      processAddToStateCalls parent env.options e depth rt p
        = some (processAddToState env e rt l) := by
  induction depth with
  | zero => intro rt p l h; cases h
  | succ depth ih =>
      intro rt p l h
      obtain ⟨rest, hrest, rfl⟩ := eq_cons_of_walk h
      unfold processAddToStateCalls processAddToState
      cases rt.find e.ptr with
      | none => rfl
      | some a =>
          dsimp only
          split
          · rfl
          · cases hp : parent p with
            | none =>
                rw [hp] at hrest
                rw [eq_nil_of_walk_none hrest]
                rfl
            | some parentState =>
                rw [hp] at hrest
                exact ih hrest

/-- The recursion of `processStateRegionSet`, likewise. -/
theorem processStateRegionSetCalls_eq (depth : Nat) : ∀ {rt : Runtime} {p : StatePtr}
    {l : List StatePtr}, walk parent depth (some p) = some l →
      processStateRegionSetCalls parent e depth rt p = some (processStateRegionSet e rt l) := by
  induction depth with
  | zero => intro rt p l h; cases h
  | succ depth ih =>
      intro rt p l h
      obtain ⟨rest, hrest, rfl⟩ := eq_cons_of_walk h
      unfold processStateRegionSetCalls processStateRegionSet
      cases rt.find e.ptr with
      | none => rfl
      | some a =>
          dsimp only
          cases hp : parent p with
          | none =>
              rw [hp] at hrest
              rw [eq_nil_of_walk_none hrest]
              rfl
          | some parentState =>
              rw [hp] at hrest
              exact ih hrest

/-- The loop of `processAddAlloc` inserts at every state of the walk. -/
theorem processAddAllocLoop_eq {a : AllocId} (turns : Nat) : ∀ {rt : Runtime}
    {start : Option StatePtr} {l : List StatePtr}, walk parent turns start = some l →
      processAddAllocLoop parent a turns rt start = some (l.foldl (insertAllocated a) rt) := by
  induction turns with
  | zero =>
      intro rt start l h
      cases start with
      | none =>
          rw [eq_nil_of_walk_none h]
          unfold processAddAllocLoop
          rfl
      | some p => cases h
  | succ turns ih =>
      intro rt start l h
      cases start with
      | none =>
          rw [eq_nil_of_walk_none h]
          unfold processAddAllocLoop
          rfl
      | some p =>
          obtain ⟨rest, hrest, rfl⟩ := eq_cons_of_walk h
          exact ih hrest

theorem foldl_insertAllocated (a : AllocId) (l : List StatePtr) : ∀ rt : Runtime,
    l.foldl (insertAllocated a) rt
      = { rt with
          sets := fun s =>
            if s ∈ l then
              { rt.sets s with
                allocsAllocatedInState := insert a (rt.sets s).allocsAllocatedInState }
            else rt.sets s } := by
  induction l with
  | nil => intro rt; simp
  | cons p l ih =>
      intro rt
      rw [List.foldl_cons, ih]
      simp only [insertAllocated, Runtime.mk.injEq, true_and, and_true]
      funext s
      by_cases hs : s = p
      · subst hs
        simp
      · simp [hs]

/-- The erased records are those of the states on both vectors. -/
theorem eraseCommon_eq (skip affil : List StatePtr) (infos : StatePtr → Option StateCommitInfo) :
    eraseCommon skip affil infos = fun s => if s ∈ affil ∧ s ∈ skip then none else infos s := by
  have hinner : ∀ (s1 : StatePtr) (skip : List StatePtr)
      (infos : StatePtr → Option StateCommitInfo),
      skip.foldl (fun infos s2 => if s1 = s2 then Function.update infos s2 none else infos) infos
        = fun s => if s = s1 ∧ s ∈ skip then none else infos s := by
    intro s1 skip
    induction skip with
    | nil => intro infos; simp
    | cons s2 skip ih =>
        intro infos
        rw [List.foldl_cons, ih]
        funext s
        by_cases h12 : s1 = s2
        · subst h12
          by_cases hs : s = s1
          · simp [hs]
          · simp [hs]
        · by_cases hs : s = s1
          · simp [hs, h12]
          · simp [hs, h12]
  unfold eraseCommon
  induction affil generalizing infos with
  | nil => simp
  | cons s1 affil ih =>
      rw [List.foldl_cons, hinner, ih]
      funext s
      by_cases hskip : s ∈ skip
      · by_cases hs : s = s1
        · subst hs
          simp [hskip]
        · simp [hskip, hs]
      · simp [hskip]

/-- `commitStateInfo`, where both walks end. -/
theorem commitStateInfoWalk_eq {turns : Nat} {skipState : Option StatePtr} {rt : Runtime}
    {a : AllocId} {skip affil : List StatePtr} (hskip : walk parent turns skipState = some skip)
    (haffil : walk parent turns (rt.allocs a).affiliatedState = some affil) :
    commitStateInfoWalk parent turns skipState rt a
      = some (commitRecords (eraseCommon skip affil (rt.allocs a).stateCommitInfoMap) rt a) := by
  unfold commitStateInfoWalk
  rw [hskip, haffil]
  rfl

end Walks

-- =============================================================== on the tree

section Tree

variable (tree : StateTree)

/-- The links of a tree are walked along the chain. -/
theorem walk_tree (turns : Nat) : ∀ start : Option StateId, (∀ s, start = some s → s < turns) →
    walk tree.parent turns start = some (tree.chain? start) := by
  induction turns with
  | zero =>
      intro start hstart
      cases start with
      | none => rfl
      | some s => exact absurd (hstart s rfl) (Nat.not_lt_zero s)
  | succ turns ih =>
      intro start hstart
      cases start with
      | none => rfl
      | some s =>
          have hnext : ∀ t, tree.parent s = some t → t < turns := by
            intro t ht
            exact Nat.lt_of_lt_of_le (tree.parent_lt s t ht) (Nat.le_of_lt_succ (hstart s rfl))
          rw [walk, ih (tree.parent s) hnext]
          show some (s :: tree.chain? (tree.parent s)) = some (tree.chain s)
          rw [tree.chain_eq s]

variable {tree} {env : Env} {e : ShadowEntry} {rt : Runtime}

theorem walk_chain {turns : Nat} {s : StateId} (h : s < turns) :
    walk tree.parent turns (some s) = some (tree.chain s) := by
  apply walk_tree tree turns (some s)
  intro t ht
  injection ht with ht
  rw [← ht]
  exact h

/-- Shadow.lean's `processAddToState` is the recursion of the source. -/
theorem processAddToStateCalls_tree {depth : Nat} {s : StateId} (h : s < depth) :
    processAddToStateCalls env.tree.parent env.options e depth rt s
      = some (processAddToState env e rt (env.tree.chain s)) :=
  processAddToStateCalls_eq depth (walk_chain h)

theorem processStateRegionSetCalls_tree {depth : Nat} {s : StateId} (h : s < depth) :
    processStateRegionSetCalls tree.parent e depth rt s
      = some (processStateRegionSet e rt (tree.chain s)) :=
  processStateRegionSetCalls_eq depth (walk_chain h)

/-- So is `processAddAlloc`. -/
theorem processAddAllocWalk_tree {turns : Nat} (h : ∀ s, e.affiliatedState = some s → s < turns) :
    processAddAllocWalk env.tree.parent turns rt e = some (processAddAlloc env rt e) := by
  unfold processAddAllocWalk processAddAlloc noteAllocated
  dsimp only
  cases haff : e.affiliatedState with
  | none => simp [StateTree.chain?]
  | some s =>
      have hnext : ∀ t, env.tree.parent s = some t → t < turns := fun t ht =>
        Nat.lt_trans (env.tree.parent_lt s t ht) (h s haff)
      dsimp only
      rw [processAddAllocLoop_eq turns (walk_tree env.tree turns _ hnext), ← List.foldl_cons,
        ← env.tree.chain_eq, foldl_insertAllocated]
      rfl

/-- And `commitStateInfo`. -/
theorem commitStateInfoWalk_tree {turns : Nat} {skipState : Option StateId} {a : AllocId}
    (hskip : ∀ s, skipState = some s → s < turns)
    (haff : ∀ s, (rt.allocs a).affiliatedState = some s → s < turns) :
    commitStateInfoWalk tree.parent turns skipState rt a
      = some (commitStateInfo tree skipState rt a) := by
  rw [commitStateInfoWalk_eq (walk_tree tree turns skipState hskip) (walk_tree tree turns _ haff),
    eraseCommon_eq]
  rfl

end Tree

-- =============================================================== the objects

/-- No two states have the same name and line. -/
def StateMap.Interned (m : StateMap) : Prop :=
  ∀ (i j : StateId) (a b : StateInfo), m.states[i]? = some a → m.states[j]? = some b →
    a.functionName = b.functionName → a.lineNumber = b.lineNumber → i = j

theorem StateMap.find_spec {m : StateMap} {f : String} {l : UInt64} {s : StateId}
    (h : m.find f l = some s) :
    ∃ info, m.states[s]? = some info ∧ info.functionName = f ∧ info.lineNumber = l := by
  obtain ⟨hlt, hnamed, -⟩ := List.findIdx?_eq_some_iff_getElem.mp h
  exact ⟨_, List.getElem?_eq_getElem hlt, of_decide_eq_true hnamed⟩

/-- A state that is entered again. -/
theorem getState_old {p : Producer} {f : String} {l : UInt64} {s : StateId}
    (h : p.stateMap.find f l = some s) :
    (p.getState f l).1.stateMap = p.stateMap ∧ (p.getState f l).1.activeState = some s
      ∧ (p.getState f l).2 = s := by
  unfold Producer.getState
  split
  next t ht =>
    rw [h] at ht
    injection ht with ht
    exact ⟨rfl, congrArg some ht.symm, ht.symm⟩
  next hnone =>
    rw [h] at hnone
    cases hnone

/-- A state that is entered for the first time. -/
theorem getState_new {p : Producer} {f : String} {l : UInt64} (h : p.stateMap.find f l = none) :
    (p.getState f l).1.stateMap.states = p.stateMap.states ++ [⟨f, l, p.activeState⟩]
      ∧ (p.getState f l).1.activeState = some p.stateMap.states.length
      ∧ (p.getState f l).2 = p.stateMap.states.length := by
  unfold Producer.getState
  split
  next t ht =>
    rw [h] at ht
    cases ht
  next => exact ⟨rfl, rfl, rfl⟩

/-- A new name and line keep the states apart. -/
theorem StateMap.Interned.concat {m m' : StateMap} {f : String} {l : UInt64}
    {par : Option StateId} (h : m.Interned) (hf : m.find f l = none)
    (hstates : m'.states = m.states ++ [⟨f, l, par⟩]) : m'.Interned := by
  have hno : ∀ (i : StateId) (a : StateInfo), m.states[i]? = some a →
      a.functionName = f → a.lineNumber = l → False := by
    intro i a ha hname hline
    have hfalse := List.findIdx?_eq_none_iff.mp hf a (List.mem_of_getElem? ha)
    simp [hname, hline] at hfalse
  intro i j a b ha hb hname hline
  rw [hstates] at ha hb
  rcases getElem?_concat_eq_some.mp ha with ha | ⟨rfl, rfl⟩
  · rcases getElem?_concat_eq_some.mp hb with hb | ⟨rfl, rfl⟩
    · exact h i j a b ha hb hname hline
    · exact (hno i a ha hname hline).elim
  · rcases getElem?_concat_eq_some.mp hb with hb | ⟨rfl, -⟩
    · exact (hno j b hb hname.symm hline.symm).elim
    · rfl

/-- The calls as the producer's model knows them. -/
def StateCall.toCall : StateCall → Call
  | .getState funcName lineNum _ => .getState funcName lineNum
  | .endState stateID => .endState stateID.toNat

theorem call_endState_fst (trackCycles : Bool) (p : Producer) (id : StateId) :
    (p.call trackCycles (.endState id)).1 = (p.endState id).1 := by
  unfold Producer.call
  dsimp only
  split
  next hend => rw [hend]
  next hend => rw [hend]

namespace States

/-- The objects at the addresses `created`, in the order of creation,
are the states of the producer. -/
structure Represents (created : List StatePtr) (st : States) (p : Producer) : Prop where
  nodup : created.Nodup
  address : ∀ q ∈ created, 0 < q ∧ q < 2 ^ 64
  length_eq : created.length = p.stateMap.states.length
  next : st.currentStateID.toNat = created.length
  keys : ∀ key q, st.stateMap.find? key = some q ↔ created[key.toNat]? = some q
  objects : ∀ i q info, created[i]? = some q → p.stateMap.states[i]? = some info →
    st.heap q = some ⟨info.functionName, info.lineNumber, UInt64.ofNat i,
      info.parent.bind (created[·]?)⟩
  active : st.activeState = p.activeState.bind (created[·]?)
  interned : p.stateMap.Interned

/-- Different addresses below a bound, none of them null. -/
theorem length_lt {l : List Nat} {n : Nat} (hn : 0 < n) (hnd : l.Nodup)
    (h : ∀ q ∈ l, 0 < q ∧ q < n) : l.length < n := by
  have hsub : l ⊆ List.range' 1 (n - 1) := by
    intro q hq
    obtain ⟨hpos, hlt⟩ := h q hq
    exact List.mem_range'_1.mpr ⟨hpos, by omega⟩
  have hle := (hnd.subperm hsub).length_le
  rw [List.length_range'] at hle
  omega

/-- Old places are read in the longer list as before. -/
theorem bind_getElem?_append {place : Option Nat} {l l' : List StatePtr}
    (h : ∀ t, place = some t → t < l.length) :
    place.bind ((l ++ l')[·]?) = place.bind (l[·]?) := by
  cases place with
  | none => rfl
  | some t => exact List.getElem?_append_left (h t rfl)

theorem represents_init : Represents [] init Producer.init where
  nodup := List.nodup_nil
  address q hq := absurd hq List.not_mem_nil
  length_eq := rfl
  next := rfl
  keys key q := by simp [init]
  objects i q info hq := by simp at hq
  active := rfl
  interned i j a b ha := by simp [Producer.init, StateMap.empty] at ha

section Represents

variable {created : List StatePtr} {st : States} {p : Producer} {i : Nat} {q : StatePtr}
  {f : String} {l : UInt64}

/-- Ids do not wrap. -/
theorem Represents.lt_size (h : Represents created st p) (hq : created[i]? = some q) :
    i < 2 ^ 64 :=
  Nat.lt_trans (List.getElem?_eq_some_iff.mp hq).1
    (length_lt (Nat.two_pow_pos 64) h.nodup h.address)

theorem Represents.toNat_ofNat (h : Represents created st p) (hq : created[i]? = some q) :
    (UInt64.ofNat i).toNat = i := by
  rw [UInt64.toNat_ofNat', Nat.mod_eq_of_lt (h.lt_size hq)]

/-- Every address has its object. -/
theorem Represents.object (h : Represents created st p) (hq : created[i]? = some q) :
    ∃ info, p.stateMap.states[i]? = some info
      ∧ st.heap q = some ⟨info.functionName, info.lineNumber, UInt64.ofNat i,
        info.parent.bind (created[·]?)⟩ := by
  have hlt := (List.getElem?_eq_some_iff.mp hq).1
  rw [h.length_eq] at hlt
  have hinfo := List.getElem?_eq_getElem hlt
  exact ⟨_, hinfo, h.objects i q _ hq hinfo⟩

theorem Represents.not_mem_of_unused (h : Represents created st p) (hq : st.heap q = none) :
    q ∉ created := by
  intro hmem
  obtain ⟨i, hi⟩ := List.mem_iff_getElem?.mp hmem
  obtain ⟨info, -, hobj⟩ := h.object hi
  rw [hq] at hobj
  cases hobj

/-- The test of the search. -/
theorem Represents.named_iff (h : Represents created st p) (hq : created[i]? = some q) :
    st.named f l q = true ↔ ∃ info, p.stateMap.states[i]? = some info
      ∧ info.functionName = f ∧ info.lineNumber = l := by
  obtain ⟨info, hinfo, hobj⟩ := h.object hq
  unfold named
  rw [hobj]
  simp [hinfo]

end Represents

-- ================================================================= the calls

section Calls

variable {order : List (UInt64 × StatePtr) → List (UInt64 × StatePtr)}
  (horder : ∀ entries, (order entries).Perm entries)
  {created : List StatePtr} {st : States} {p : Producer} (h : Represents created st p)
  {f : String} {l : UInt64}

include h

include horder in
theorem Represents.mem_order {a : UInt64 × StatePtr} :
    a ∈ order st.stateMap.entries ↔ created[a.1.toNat]? = some a.2 := by
  obtain ⟨key, q⟩ := a
  rw [(horder _).mem_iff, SortedMap.mem_entries_iff]
  exact h.keys key q

include horder in
/-- The search fails when no state has the name. -/
theorem Represents.search_none (hf : p.stateMap.find f l = none) :
    (order st.stateMap.entries).find? (fun a => st.named f l a.2) = none := by
  rw [List.find?_eq_none]
  intro a ha hnamed
  obtain ⟨info, hinfo, hname, hline⟩ := (h.named_iff ((h.mem_order horder).mp ha)).mp hnamed
  have hno := List.findIdx?_eq_none_iff.mp hf info (List.mem_of_getElem? hinfo)
  simp [hname, hline] at hno

include horder in
/-- In whatever order it goes, the search finds the one state that has
the name. -/
theorem Represents.search_some {s : StateId} (hf : p.stateMap.find f l = some s) :
    ∃ key q, (order st.stateMap.entries).find? (fun a => st.named f l a.2) = some (key, q)
      ∧ key.toNat = s ∧ created[s]? = some q := by
  obtain ⟨info, hinfo, hname, hline⟩ := StateMap.find_spec hf
  have hlt := (List.getElem?_eq_some_iff.mp hinfo).1
  rw [← h.length_eq] at hlt
  have hq := List.getElem?_eq_getElem hlt
  cases hfind : (order st.stateMap.entries).find? fun a => st.named f l a.2 with
  | none =>
      have hmem : (UInt64.ofNat s, created[s]) ∈ order st.stateMap.entries := by
        rw [h.mem_order horder, h.toNat_ofNat hq]
        exact hq
      exact absurd ((h.named_iff hq).mpr ⟨info, hinfo, hname, hline⟩)
        (List.find?_eq_none.mp hfind _ hmem)
  | some a =>
      obtain ⟨key, q⟩ := a
      have hplace := (h.mem_order horder).mp (List.mem_of_find?_eq_some hfind)
      have hnamed := List.find?_some hfind
      obtain ⟨info', hinfo', hname', hline'⟩ := (h.named_iff hplace).mp hnamed
      have hkey : key.toNat = s := h.interned _ _ info' info hinfo' hinfo
        (hname'.trans hname.symm) (hline'.trans hline.symm)
      refine ⟨key, q, rfl, hkey, ?_⟩
      rw [← hkey]
      exact hplace

/-- The objects once there is a new one. -/
theorem Represents.create_objects (hf : p.stateMap.find f l = none) {q : StatePtr}
    (hq : q ∉ created) {i : Nat} {x : StatePtr} {info : StateInfo}
    (hx : (created ++ [q])[i]? = some x)
    (hinfo : (p.getState f l).1.stateMap.states[i]? = some info) :
    (st.create f l q).heap x = some ⟨info.functionName, info.lineNumber, UInt64.ofNat i,
      info.parent.bind ((created ++ [q])[·]?)⟩ := by
  rw [(getState_new hf).1] at hinfo
  unfold States.create
  dsimp only
  rcases getElem?_concat_eq_some.mp hx with hx | ⟨rfl, rfl⟩
  · have hlt := (List.getElem?_eq_some_iff.mp hx).1
    have hne : x ≠ q := fun heq => hq (heq ▸ List.mem_of_getElem? hx)
    have hold : p.stateMap.states[i]? = some info := by
      rw [List.getElem?_append_left (by rw [← h.length_eq]; exact hlt)] at hinfo
      exact hinfo
    -- parents are older, so their addresses stay where they were
    have hparent : ∀ t, info.parent = some t → t < created.length := fun t ht =>
      Nat.lt_trans (p.stateMap.parent_lt i t info hold ht) hlt
    rw [Function.update_of_ne hne, h.objects i x info hx hold, bind_getElem?_append hparent]
  · rw [h.length_eq, List.getElem?_concat_length] at hinfo
    injection hinfo with hinfo
    subst hinfo
    have hactive : ∀ t, p.activeState = some t → t < created.length := by
      intro t ht
      rw [h.length_eq]
      exact p.active_lt t ht
    rw [Function.update_self, bind_getElem?_append hactive, ← h.active, ← h.next,
      UInt64.ofNat_toNat]

/-- A new object at an address of its own. -/
theorem Represents.create (hf : p.stateMap.find f l = none) {q : StatePtr} (hq : st.Unused q) :
    Represents (created ++ [q]) (st.create f l q) (p.getState f l).1 := by
  obtain ⟨hpos, hlt, hunused⟩ := hq
  obtain ⟨hstates, hactive, -⟩ := getState_new hf
  have hnew : q ∉ created := h.not_mem_of_unused hunused
  have hnd : (created ++ [q]).Nodup := by
    rw [← List.concat_eq_append]
    exact h.nodup.concat hnew
  have haddress : ∀ x ∈ created ++ [q], 0 < x ∧ x < 2 ^ 64 := by
    intro x hx
    rcases List.mem_append.mp hx with hx | hx
    · exact h.address x hx
    · rw [List.mem_singleton.mp hx]
      exact ⟨hpos, hlt⟩
  have hlength : (created ++ [q]).length = created.length + 1 := List.length_append
  have hroom : created.length + 1 < 2 ^ 64 := by
    rw [← hlength]
    exact length_lt (Nat.two_pow_pos 64) hnd haddress
  refine ⟨hnd, haddress, ?_, ?_, ?_, ?_, ?_, h.interned.concat hf hstates⟩
  · rw [hstates, hlength, List.length_append, h.length_eq]
    rfl
  · show (st.currentStateID + 1).toNat = _
    rw [UInt64.toNat_add, h.next, hlength]
    exact Nat.mod_eq_of_lt hroom
  · intro key x
    show (st.stateMap.insertOrAssign st.currentStateID q).find? key = some x ↔ _
    rw [SortedMap.find?_insertOrAssign, getElem?_concat_eq_some]
    by_cases hk : key = st.currentStateID
    · rw [if_pos hk, hk, h.next, List.getElem?_eq_none (Nat.le_refl _)]
      simp [eq_comm]
    · have hne : key.toNat ≠ created.length := by
        rw [← h.next]
        exact fun heq => hk (UInt64.toNat_inj.mp heq)
      rw [if_neg hk, h.keys]
      simp [hne]
  · exact fun i x info hx hinfo => h.create_objects hf hnew hx hinfo
  · show some q = _
    rw [hactive, ← h.length_eq]
    exact List.getElem?_concat_length.symm

/-- Another state is active, and nothing else has changed. -/
theorem Represents.activate {p' : Producer} {active : Option StatePtr}
    (hmap : p'.stateMap = p.stateMap) (hactive : active = p'.activeState.bind (created[·]?)) :
    Represents created { st with activeState := active } p' where
  nodup := h.nodup
  address := h.address
  length_eq := by rw [hmap]; exact h.length_eq
  next := h.next
  keys := h.keys
  objects := by rw [hmap]; exact h.objects
  active := hactive
  interned := by rw [hmap]; exact h.interned

/-- Both sides have an active state, or neither has. -/
theorem Represents.active_cases :
    (st.activeState = none ∧ p.activeState = none)
      ∨ ∃ s q, st.activeState = some q ∧ p.activeState = some s ∧ created[s]? = some q := by
  cases hs : p.activeState with
  | none =>
      left
      rw [h.active, hs]
      exact ⟨rfl, rfl⟩
  | some s =>
      right
      have hlt : s < created.length := by
        rw [h.length_eq]
        exact p.active_lt s hs
      refine ⟨s, created[s], ?_, rfl, List.getElem?_eq_getElem hlt⟩
      rw [h.active, hs]
      exact List.getElem?_eq_getElem hlt

include horder in
/-- `GetState` does what the producer's model says, with the id it
returns, unless it needs an address that `new` cannot return. -/
theorem Represents.getState (q : StatePtr) :
    (∃ created' st' id, st.getState order f l q = some (st', id)
        ∧ Represents created' st' (p.getState f l).1 ∧ id.toNat = (p.getState f l).2)
      ∨ (st.getState order f l q = none ∧ p.stateMap.find f l = none ∧ ¬ st.Unused q) := by
  unfold States.getState
  cases hf : p.stateMap.find f l with
  | some s =>
      left
      obtain ⟨key, x, hfind, -, hx⟩ := h.search_some horder hf
      obtain ⟨info, -, hobj⟩ := h.object hx
      obtain ⟨hmap, hactive, hid⟩ := getState_old hf
      rw [hfind]
      dsimp only
      rw [hobj]
      refine ⟨created, _, _, rfl, h.activate hmap ?_, ?_⟩
      · rw [hactive]
        exact hx.symm
      · rw [hid]
        exact h.toNat_ofNat hx
  | none =>
      rw [h.search_none horder hf]
      dsimp only
      split
      next hq =>
        left
        refine ⟨_, _, _, rfl, h.create hf hq, ?_⟩
        rw [(getState_new hf).2.2, h.next, h.length_eq]
      next hq => exact Or.inr ⟨rfl, rfl, hq⟩

/-- `EndState` always returns. -/
theorem Represents.endState (stateID : UInt64) (id : StateId) :
    ∃ st' result, st.endState stateID = some (st', result)
      ∧ Represents created st' (p.endState id).1 := by
  unfold States.endState
  rcases h.active_cases with ⟨hactive, hnone⟩ | ⟨s, q, hactive, hsome, hq⟩
  · rw [hactive]
    refine ⟨st, 1, rfl, ?_⟩
    unfold Producer.endState
    split
    · exact h
    next t ht =>
      rw [hnone] at ht
      cases ht
  · obtain ⟨info, hinfo, hobj⟩ := h.object hq
    obtain ⟨-, hmap, hparent⟩ := endState_of_active hsome id
    rw [hactive]
    dsimp only
    rw [hobj]
    refine ⟨_, _, rfl, h.activate hmap ?_⟩
    rw [hparent]
    unfold StateMap.parent
    rw [hinfo]
    rfl

include horder in
/-- One call: it does what the producer's model says, or it would need
an address that `new` cannot return. -/
theorem Represents.step (trackCycles : Bool) (call : StateCall) :
    (∃ created' st', st.step order call = some st'
        ∧ Represents created' st' (p.call trackCycles call.toCall).1)
      ∨ (st.step order call = none ∧ ∃ f l q, call = .getState f l q ∧ ¬ st.Unused q) := by
  cases call with
  | getState f l q =>
      unfold States.step
      dsimp only
      rcases h.getState horder q with ⟨created', st', id, hget, hrep, -⟩ | ⟨hget, -, hq⟩
      · left
        rw [hget]
        exact ⟨created', st', rfl, hrep⟩
      · right
        rw [hget]
        exact ⟨rfl, f, l, q, rfl, hq⟩
  | endState stateID =>
      left
      obtain ⟨st', result, hend, hrep⟩ := h.endState stateID stateID.toNat
      unfold States.step
      dsimp only
      rw [hend]
      refine ⟨created, st', rfl, ?_⟩
      rw [StateCall.toCall, call_endState_fst]
      exact hrep

end Calls

/-- Any calls. -/
theorem represents_run {order : List (UInt64 × StatePtr) → List (UInt64 × StatePtr)}
    (horder : ∀ entries, (order entries).Perm entries) (trackCycles : Bool)
    (calls : List StateCall) :
    ∀ {created : List StatePtr} {st st' : States} {p : Producer}, Represents created st p →
      st.run order calls = some st' →
      ∃ created', Represents created' st'
        (p.calls trackCycles (calls.map StateCall.toCall)).1 := by
  induction calls with
  | nil =>
      intro created st st' p h hrun
      injection hrun with hrun
      rw [← hrun]
      exact ⟨created, h⟩
  | cons call calls ih =>
      intro created st st' p h hrun
      obtain ⟨mid, hmid, hrest⟩ := Option.bind_eq_some_iff.mp hrun
      rcases h.step horder trackCycles call with ⟨created', mid', hmid', hrep⟩ | ⟨hnone, -⟩
      · rw [hmid] at hmid'
        injection hmid' with hmid'
        rw [← hmid'] at hrep
        exact ih hrep hrest
      · rw [hmid] at hnone
        cases hnone

-- ================================================================ the parents

/-- The states of `stateMap`: stored under their ids, told apart by name
and line, each under a parent with a smaller id. -/
structure Sound (st : States) : Prop where
  ids : ∀ key q, st.stateMap.find? key = some q →
    ∃ state, st.heap q = some state ∧ state.stateID = key
  distinct : ∀ q r a b, st.InMap q → st.InMap r → st.heap q = some a → st.heap r = some b →
    a.functionName = b.functionName → a.lineNumber = b.lineNumber → q = r
  parents : ∀ q state par, st.InMap q → st.heap q = some state → state.parent = some par →
    ∃ parent, st.heap par = some parent ∧ st.stateMap.find? parent.stateID = some par
      ∧ parent.stateID < state.stateID

/-- The recursions and the loops along parents end, from every state of
`stateMap`. -/
structure WalksEnd (st : States) : Prop where
  processAddToState : ∀ q, st.InMap q → ∀ options e rt, ∃ depth rt',
    processAddToStateCalls st.parent options e depth rt q = some rt'
  processStateRegionSet : ∀ q, st.InMap q → ∀ e rt, ∃ depth rt',
    processStateRegionSetCalls st.parent e depth rt q = some rt'
  processAddAlloc : ∀ rt e, (∀ q, e.affiliatedState = some q → st.InMap q) →
    ∃ turns rt', processAddAllocWalk st.parent turns rt e = some rt'
  commitStateInfo : ∀ skipState rt a, (∀ q, skipState = some q → st.InMap q) →
    (∀ q, (rt.allocs a).affiliatedState = some q → st.InMap q) →
    ∃ turns rt', commitStateInfoWalk st.parent turns skipState rt a = some rt'

/-- What the objects inherit from the list they stand for. -/
theorem Represents.sound {created : List StatePtr} {st : States} {p : Producer}
    (h : Represents created st p) : st.Sound := by
  have hplace : ∀ {q : StatePtr}, st.InMap q → ∃ i : Nat, created[i]? = some q := by
    rintro q ⟨key, hkey⟩
    exact ⟨_, (h.keys key q).mp hkey⟩
  refine ⟨fun key q hkey => ?_, fun q r a b hq hr ha hb hname hline => ?_,
    fun q state par hq hstate hpar => ?_⟩
  · obtain ⟨info, -, hobj⟩ := h.object ((h.keys key q).mp hkey)
    exact ⟨_, hobj, UInt64.ofNat_toNat⟩
  · obtain ⟨i, hi⟩ := hplace hq
    obtain ⟨j, hj⟩ := hplace hr
    obtain ⟨info, hinfo, hobj⟩ := h.object hi
    obtain ⟨info', hinfo', hobj'⟩ := h.object hj
    rw [ha] at hobj
    rw [hb] at hobj'
    injection hobj with hobj
    injection hobj' with hobj'
    subst hobj hobj'
    have hij : i = j := h.interned i j info info' hinfo hinfo' hname hline
    rw [hij, hj] at hi
    injection hi with hi
    exact hi.symm
  · obtain ⟨i, hi⟩ := hplace hq
    obtain ⟨info, hinfo, hobj⟩ := h.object hi
    rw [hstate] at hobj
    injection hobj with hobj
    subst hobj
    obtain ⟨t, ht, hpart⟩ := Option.bind_eq_some_iff.mp hpar
    obtain ⟨info', -, hobj'⟩ := h.object hpart
    refine ⟨_, hobj', ?_, ?_⟩
    · rw [h.keys, h.toNat_ofNat hpart]
      exact hpart
    · rw [UInt64.lt_iff_toNat_lt, h.toNat_ofNat hpart, h.toNat_ofNat hi]
      exact p.stateMap.parent_lt i t info hinfo ht

/-- The id of a state, as the rank of its walk. -/
def rank (st : States) (q : StatePtr) : Nat :=
  ((st.heap q).map fun state => state.stateID.toNat).getD 0

/-- The ids along a walk are the chain of the id it starts from. -/
theorem Represents.walk_ids {created : List StatePtr} {st : States} {p : Producer}
    (h : Represents created st p) (turns : Nat) : ∀ {s : StateId} {q : StatePtr},
      created[s]? = some q → s < turns →
      ∃ l, walk st.parent turns (some q) = some l ∧ l.map st.rank = p.stateMap.tree.chain s := by
  induction turns with
  | zero => intro s q _ hs; exact absurd hs (Nat.not_lt_zero s)
  | succ turns ih =>
      intro s q hq hs
      obtain ⟨info, hinfo, hobj⟩ := h.object hq
      have hrank : st.rank q = s := by
        unfold rank
        rw [hobj]
        exact h.toNat_ofNat hq
      have hlink : st.parent q = info.parent.bind (created[·]?) := by
        unfold parent
        rw [hobj]
        rfl
      have hup : p.stateMap.tree.parent s = info.parent := by
        show p.stateMap.states[s]?.bind StateInfo.parent = _
        rw [hinfo]
        rfl
      rw [walk, hlink, p.stateMap.tree.chain_eq, hup]
      cases hpar : info.parent with
      | none => exact ⟨[q], by simp, by simp [hrank, StateTree.chain?]⟩
      | some t =>
          have hts : t < s := p.stateMap.parent_lt s t info hinfo hpar
          have htc : t < created.length := Nat.lt_trans hts (List.getElem?_eq_some_iff.mp hq).1
          have hr : created[t]? = some created[t] := List.getElem?_eq_getElem htc
          obtain ⟨l, hl, hids⟩ := ih hr (Nat.lt_of_lt_of_le hts (Nat.le_of_lt_succ hs))
          refine ⟨q :: l, ?_, ?_⟩
          · show (walk st.parent turns created[t]?).map (q :: ·) = _
            rw [hr, hl]
            rfl
          · rw [List.map_cons, hrank, hids]
            rfl

section Sound

variable {st : States} (h : st.Sound)

include h

/-- Parent pointers lead down. -/
theorem Sound.descends : Descends st.parent st.InMap st.rank := by
  have hlink : ∀ q r, st.InMap q → st.parent q = some r → st.InMap r ∧ st.rank r < st.rank q := by
    intro q r hq hr
    obtain ⟨state, hstate, hpar⟩ := Option.bind_eq_some_iff.mp hr
    obtain ⟨parent, hparent, hkey, hlt⟩ := h.parents q state r hq hstate hpar
    refine ⟨⟨_, hkey⟩, ?_⟩
    unfold rank
    rw [hstate, hparent]
    exact UInt64.lt_iff_toNat_lt.mp hlt
  exact ⟨fun q r hq hr => (hlink q r hq hr).1, fun q r hq hr => (hlink q r hq hr).2⟩

/-- Every walk ends, given enough turns. -/
theorem Sound.walk_ends (start : Option StatePtr) (hstart : ∀ q, start = some q → st.InMap q) :
    ∃ enough, ∀ turns ≥ enough, ∃ l, walk st.parent turns start = some l := by
  refine ⟨(start.map st.rank).getD 0 + 1, fun turns hturns => ?_⟩
  apply h.descends.walk_ends turns start
  intro q hq
  subst hq
  exact ⟨hstart q rfl, hturns⟩

theorem Sound.walk_from {q : StatePtr} (hq : st.InMap q) :
    ∃ turns l, walk st.parent turns (some q) = some l := by
  obtain ⟨enough, hwalk⟩ := h.walk_ends (some q) fun r hr => by
    injection hr with hr
    rw [← hr]
    exact hq
  exact ⟨enough, hwalk enough (Nat.le_refl _)⟩

/-- So do the functions that walk. -/
theorem Sound.walksEnd : st.WalksEnd where
  processAddToState q hq options e rt := by
    obtain ⟨depth, l, hl⟩ := h.walk_from hq
    let env : Env := { Env.ofTree .flat with options := options }
    have hcalls : processAddToStateCalls st.parent env.options e depth rt q = _ :=
      processAddToStateCalls_eq depth hl
    exact ⟨depth, _, hcalls⟩
  processStateRegionSet q hq e rt := by
    obtain ⟨depth, l, hl⟩ := h.walk_from hq
    exact ⟨depth, _, processStateRegionSetCalls_eq depth hl⟩
  processAddAlloc rt e haff := by
    unfold processAddAllocWalk
    dsimp only
    cases hs : e.affiliatedState with
    | none => exact ⟨0, _, rfl⟩
    | some s =>
        have hparent : ∀ r, st.parent s = some r → st.InMap r := fun r hr =>
          h.descends.stays s r (haff s hs) hr
        obtain ⟨enough, hwalk⟩ := h.walk_ends (st.parent s) hparent
        obtain ⟨l, hl⟩ := hwalk enough (Nat.le_refl _)
        exact ⟨enough, _, processAddAllocLoop_eq enough hl⟩
  commitStateInfo skipState rt a hskip haff := by
    obtain ⟨enough, hwalk⟩ := h.walk_ends skipState hskip
    obtain ⟨enough', hwalk'⟩ := h.walk_ends _ haff
    obtain ⟨l, hl⟩ := hwalk (max enough enough') (Nat.le_max_left ..)
    obtain ⟨l', hl'⟩ := hwalk' (max enough enough') (Nat.le_max_right ..)
    exact ⟨max enough enough', _, commitStateInfoWalk_eq hl hl'⟩

end Sound

-- =============================================================== every run

/-- After any calls, balanced or not, the parents of the states in
`stateMap` are in it under smaller ids, and the walks along them end. -/
theorem parentChains_finite {order : List (UInt64 × StatePtr) → List (UInt64 × StatePtr)}
    (horder : ∀ entries, (order entries).Perm entries) (calls : List StateCall) (st : States)
    (hrun : States.init.run order calls = some st) : st.Sound ∧ st.WalksEnd := by
  obtain ⟨created, hrep⟩ := represents_run horder true calls represents_init hrun
  exact ⟨hrep.sound, hrep.sound.walksEnd⟩

/-- The walk from a state visits the states of its chain in the
producer's model. -/
theorem walk_ids_run {order : List (UInt64 × StatePtr) → List (UInt64 × StatePtr)}
    (horder : ∀ entries, (order entries).Perm entries) (trackCycles : Bool)
    (calls : List StateCall) {st : States} (hrun : States.init.run order calls = some st)
    {key : UInt64} {q : StatePtr} (hq : st.stateMap.find? key = some q) :
    ∃ turns l, walk st.parent turns (some q) = some l
      ∧ l.map st.rank
        = (Producer.init.calls trackCycles (calls.map StateCall.toCall)).1.stateMap.tree.chain
            key.toNat := by
  obtain ⟨created, hrep⟩ := represents_run horder trackCycles calls represents_init hrun
  exact ⟨_, hrep.walk_ids (key.toNat + 1) ((hrep.keys key q).mp hq) (Nat.lt_succ_self _)⟩

/-- A state entered again under another one, and left once too often. -/
def reenteredCalls : List StateCall :=
  [.getState "outer" 1 16, .getState "inner" 2 32, .endState 1, .endState 1, .endState 1,
    .getState "inner" 2 0, .getState "last" 3 48]

theorem parentChains_finite_reentered :
    ∃ st, States.init.run List.reverse reenteredCalls = some st
      ∧ st.parent 48 = some 32 ∧ st.parent 32 = some 16 ∧ st.Sound ∧ st.WalksEnd := by
  have hsome : (States.init.run List.reverse reenteredCalls).isSome = true := by decide
  obtain ⟨st, hst⟩ := Option.isSome_iff_exists.mp hsome
  have hlast : (States.init.run List.reverse reenteredCalls).bind (fun st => st.parent 48)
      = some 32 := by decide
  have hinner : (States.init.run List.reverse reenteredCalls).bind (fun st => st.parent 32)
      = some 16 := by decide
  rw [hst] at hlast hinner
  exact ⟨st, hst, hlast, hinner,
    parentChains_finite (fun entries => entries.reverse_perm) reenteredCalls st hst⟩

end States

end Carmot.Texas
