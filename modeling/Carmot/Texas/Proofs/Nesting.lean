/-
When `GetState` and `EndState` behave as a stack.

A program enters and leaves ROIs in well-bracketed order. `Frame`s are
the calls still to be matched: what `GetState` returned and what was
active before it. `Stacks` asks of every `EndState` that it closes the
state it is given and makes active again what was active before the
matching `GetState`.

`EndState` pops by the parent link, and the link is fixed when a ROI is
entered for the first time. So the calls form a stack exactly when
every ROI is always entered under the ROI it was first entered under
(`SameEnclosing`, a property of the program's brackets alone).

`NestInv` is the invariant: the frames are the ids of the open ROIs,
and the parent link of every ROI entered so far points at the ROI that
enclosed each of its entries. One direction of the theorem feeds it
from the brackets (`parent_of_same`), the other from the pops
themselves: a frame that is popped right has the right link
(`frames_linked`), and every frame is popped in the end.
-/
import Mathlib.Data.List.Forall2
import Mathlib.Data.List.Induction
import Carmot.Texas.Producer

namespace Carmot.Texas

open Carmot.Lib (concat_eq_append_cons)

-- ============================================================ interned states

section Interning

variable {m : StateMap} {f g : String} {l k : UInt64} {par : Option StateId}
  (hlt : ∀ t, par = some t → t < m.states.length)

/-- One state, one name and line. -/
theorem StateMap.find_inj {s : StateId} (h : m.find f l = some s)
    (h' : m.find g k = some s) : f = g ∧ l = k := by
  obtain ⟨hs, hp, -⟩ := List.findIdx?_eq_some_iff_getElem.mp h
  obtain ⟨hs', hp', -⟩ := List.findIdx?_eq_some_iff_getElem.mp h'
  have h₁ := of_decide_eq_true hp
  have h₂ := of_decide_eq_true hp'
  exact ⟨h₁.1.symm.trans h₂.1, h₁.2.symm.trans h₂.2⟩

theorem StateMap.find_lt {s : StateId} (h : m.find f l = some s) :
    s < m.states.length := (List.findIdx?_eq_some_iff_getElem.mp h).1

/-- A new state leaves the old ones where they are. -/
theorem StateMap.find_create_of_some {s : StateId} (h : m.find g k = some s) :
    (m.create f l par hlt).find g k = some s := by
  unfold find create at *
  dsimp only
  rw [List.findIdx?_append, h]
  rfl

theorem StateMap.find_create_self (h : m.find f l = none) :
    (m.create f l par hlt).find f l = some m.states.length := by
  unfold find create at *
  dsimp only
  rw [List.findIdx?_append, h]
  simp

theorem StateMap.find_create_of_none (h : m.find g k = none) {s : StateId}
    (hs : (m.create f l par hlt).find g k = some s) : g = f ∧ k = l := by
  unfold find create at *
  dsimp only at hs
  rw [List.findIdx?_append, h] at hs
  by_contra hne
  have hno : ¬ (f = g ∧ l = k) := fun h => hne ⟨h.1.symm, h.2.symm⟩
  simp [hno] at hs

theorem StateMap.parent_create_of_lt {s : StateId} (h : s < m.states.length) :
    (m.create f l par hlt).parent s = m.parent s := by
  unfold parent create
  dsimp only
  rw [List.getElem?_append_left h]

theorem StateMap.parent_create_self :
    (m.create f l par hlt).parent m.states.length = par := by
  unfold parent create
  dsimp only
  rw [List.getElem?_append_right (Nat.le_refl _), Nat.sub_self]
  rfl

end Interning

/-- What `GetState` does: the state it returns is active and has the
name; old states stay as they are; a new one hangs under the active
state. -/
structure Entered (p p' : Producer) (f : String) (l : UInt64) (s : StateId) : Prop where
  active : p'.activeState = some s
  find_self : p'.stateMap.find f l = some s
  find_old : ∀ g k t, p.stateMap.find g k = some t → p'.stateMap.find g k = some t
  find_new : ∀ g k t, p.stateMap.find g k = none → p'.stateMap.find g k = some t →
    g = f ∧ k = l
  parent_old : ∀ t, t < p.stateMap.states.length →
    p'.stateMap.parent t = p.stateMap.parent t
  parent_new : p.stateMap.find f l = none → p'.stateMap.parent s = p.activeState
  length_le : p.stateMap.states.length ≤ p'.stateMap.states.length

theorem getState_entered (p : Producer) (f : String) (l : UInt64) :
    Entered p (p.getState f l).1 f l (p.getState f l).2 := by
  unfold Producer.getState
  split
  next s hf =>
    refine ⟨rfl, hf, fun g k t h => h, ?_, fun t _ => rfl, ?_, Nat.le_refl _⟩
    · intro g k t h h'
      have hsome : p.stateMap.find g k = some t := h'
      rw [h] at hsome
      cases hsome
    · intro h
      rw [h] at hf
      cases hf
  next hf =>
    exact ⟨rfl, StateMap.find_create_self p.active_lt hf, fun g k t h => StateMap.find_create_of_some p.active_lt h,
      fun g k t h h' => StateMap.find_create_of_none p.active_lt h h',
      fun t h => StateMap.parent_create_of_lt p.active_lt h, fun _ => StateMap.parent_create_self p.active_lt,
      by simp [StateMap.create]⟩

theorem endState_of_active {p : Producer} {s : StateId} (h : p.activeState = some s)
    (id : StateId) :
    (p.endState id).2 = some s ∧ (p.endState id).1.stateMap = p.stateMap
      ∧ (p.endState id).1.activeState = p.stateMap.parent s := by
  unfold Producer.endState
  split
  next h' =>
    rw [h] at h'
    cases h'
  next t h' =>
    rw [h] at h'
    injection h' with h'
    subst h'
    exact ⟨rfl, rfl, rfl⟩

theorem active_of_endState {p : Producer} {id s : StateId}
    (h : (p.endState id).2 = some s) : p.activeState = some s := by
  cases ha : p.activeState with
  | none =>
      unfold Producer.endState at h
      split at h
      · cases h
      next h' =>
        rw [ha] at h'
        cases h'
  | some t =>
      rw [(endState_of_active ha id).1] at h
      exact h

-- =============================================================== brackets

/-- A ROI as the program names it: function and line. -/
abbrev Roi := String × UInt64

/-- Enter a ROI, or leave the innermost one. -/
inductive Bracket
  | enter (roi : Roi)
  | leave
  deriving DecidableEq, Repr

/-- The open ROIs, innermost first. -/
def openStep (open_ : List Roi) : Bracket → List Roi
  | .enter roi => roi :: open_
  | .leave => open_.tail

def openRois (bs : List Bracket) : List Roi := bs.foldl openStep []

/-- From `n` open brackets on: every leave has an enter, and every enter
its leave. -/
def WellBracketed : Nat → List Bracket → Prop
  | n, [] => n = 0
  | n, .enter _ :: bs => WellBracketed (n + 1) bs
  | 0, .leave :: _ => False
  | n + 1, .leave :: bs => WellBracketed n bs

/-- Every two entries of a ROI have the same enclosing ROI. -/
def SameEnclosing (bs : List Bracket) : Prop :=
  ∀ pre roi mid post, bs = pre ++ .enter roi :: (mid ++ .enter roi :: post) →
    (openRois pre).head? = (openRois (pre ++ .enter roi :: mid)).head?

/-- A `GetState` whose `EndState` is still to come. -/
structure Frame where
  /-- The id it returned. -/
  id : StateId
  /-- `activeState` just before it. -/
  before : Option StateId

/-- Along the brackets every `EndState`, given the id of its
`GetState`, closes that state and restores what was active before. -/
def Stacks : Producer → List Frame → List Bracket → Prop
  | _, _, [] => True
  | p, frames, .enter roi :: bs =>
      Stacks (p.getState roi.1 roi.2).1
        (⟨(p.getState roi.1 roi.2).2, p.activeState⟩ :: frames) bs
  | _, [], .leave :: _ => True
  | p, fr :: frames, .leave :: bs =>
      (p.endState fr.id).1.activeState = fr.before
        ∧ (p.endState fr.id).2 = some fr.id
        ∧ Stacks (p.endState fr.id).1 frames bs

-- ============================================================ the invariant

/-- The id of the innermost of some ROIs. -/
def headId (m : StateMap) (rois : List Roi) : Option StateId :=
  rois.head?.bind fun roi => m.find roi.1 roi.2

/-- After the brackets `done`: the open frames are the open ROIs, the
innermost is active, and every ROI entered so far hangs under the one
that enclosed each of its entries. -/
structure NestInv (done : List Bracket) (p : Producer) (frames : List Frame) : Prop where
  active : p.activeState = frames.head?.map Frame.id
  opened : List.Forall₂ (fun fr roi => p.stateMap.find roi.1 roi.2 = some fr.id)
    frames (openRois done)
  linked : ∀ fr ∈ frames, p.stateMap.parent fr.id = fr.before
  restored : ∀ outer fr rest, frames = outer ++ fr :: rest →
    fr.before = rest.head?.map Frame.id
  entered : ∀ pre roi mid, done = pre ++ .enter roi :: mid →
    ∃ s, p.stateMap.find roi.1 roi.2 = some s
      ∧ p.stateMap.parent s = headId p.stateMap (openRois pre)
  known : ∀ f l s, p.stateMap.find f l = some s →
    ∃ pre mid, done = pre ++ .enter (f, l) :: mid

theorem openRois_append_singleton (bs : List Bracket) (b : Bracket) :
    openRois (bs ++ [b]) = openStep (openRois bs) b := by
  unfold openRois
  rw [List.foldl_append]
  rfl

/-- An open ROI was entered. -/
theorem entered_of_mem_openRois {roi : Roi} (bs : List Bracket) :
    roi ∈ openRois bs → ∃ pre mid, bs = pre ++ .enter roi :: mid := by
  induction bs using List.reverseRecOn with
  | nil => intro h; cases h
  | append_singleton bs b ih =>
      intro h
      rw [openRois_append_singleton] at h
      have hold : roi ∈ openRois bs → ∃ pre mid, bs ++ [b] = pre ++ .enter roi :: mid := by
        intro h
        obtain ⟨pre, mid, heq⟩ := ih h
        exact ⟨pre, mid ++ [b], by rw [heq]; simp⟩
      cases b with
      | enter roi' =>
          rcases List.mem_cons.mp h with rfl | h
          · exact ⟨bs, [], rfl⟩
          · exact hold h
      | leave => exact hold (List.mem_of_mem_tail h)

theorem nestInv_init : NestInv [] Producer.init [] where
  active := rfl
  opened := List.Forall₂.nil
  linked fr hfr := absurd hfr List.not_mem_nil
  restored outer fr rest h := by simp at h
  entered pre roi mid h := by simp at h
  known f l s h := by cases h

section Step

variable {done : List Bracket} {p : Producer} {frames : List Frame}

/-- Open ROIs are interned. -/
theorem NestInv.find_of_open (hinv : NestInv done p frames) {pre mid : List Bracket}
    (hpre : done = pre ++ mid) (roi : Roi) (hroi : roi ∈ openRois pre) :
    ∃ s, p.stateMap.find roi.1 roi.2 = some s := by
  obtain ⟨pre', mid', heq⟩ := entered_of_mem_openRois pre hroi
  obtain ⟨s, hs, -⟩ := hinv.entered pre' roi (mid' ++ mid) (by rw [hpre, heq]; simp)
  exact ⟨s, hs⟩

/-- The active state is the innermost open ROI. -/
theorem NestInv.active_eq_headId (hinv : NestInv done p frames) :
    p.activeState = headId p.stateMap (openRois done) := by
  have hopened := hinv.opened
  rw [hinv.active]
  unfold headId
  generalize openRois done = rois at hopened
  cases hopened with
  | nil => rfl
  | cons h _ => exact h.symm

/-- Enclosing ROIs keep their ids when more states are created. -/
theorem NestInv.headId_entered (hinv : NestInv done p frames) {p' : Producer}
    {f : String} {l : UInt64} {s : StateId} (hent : Entered p p' f l s)
    {pre mid : List Bracket} (hpre : done = pre ++ mid) :
    headId p'.stateMap (openRois pre) = headId p.stateMap (openRois pre) := by
  have hfind := hinv.find_of_open hpre
  unfold headId
  cases hrois : openRois pre with
  | nil => rfl
  | cons roi rest =>
      obtain ⟨t, ht⟩ := hfind roi (by rw [hrois]; exact List.mem_cons_self ..)
      show p'.stateMap.find roi.1 roi.2 = p.stateMap.find roi.1 roi.2
      rw [ht, hent.find_old _ _ t ht]

theorem NestInv.frame_lt (hinv : NestInv done p frames) {fr : Frame} (hfr : fr ∈ frames) :
    fr.id < p.stateMap.states.length := by
  have hopened := hinv.opened
  clear hinv
  generalize openRois done = rois at hopened
  induction hopened with
  | nil => cases hfr
  | cons h _ ih =>
      rcases List.mem_cons.mp hfr with rfl | hfr
      · exact StateMap.find_lt h
      · exact ih hfr

/-- Entering a ROI whose state hangs under the active one. -/
theorem nestInv_enter (hinv : NestInv done p frames) (roi : Roi)
    (hlink : (p.getState roi.1 roi.2).1.stateMap.parent (p.getState roi.1 roi.2).2
      = p.activeState) :
    NestInv (done ++ [.enter roi]) (p.getState roi.1 roi.2).1
      (⟨(p.getState roi.1 roi.2).2, p.activeState⟩ :: frames) := by
  have hent := getState_entered p roi.1 roi.2
  generalize p.getState roi.1 roi.2 = r at hent hlink
  obtain ⟨p', s⟩ := r
  refine ⟨hent.active, ?_, ?_, ?_, ?_, ?_⟩
  · rw [openRois_append_singleton]
    refine List.Forall₂.cons hent.find_self (hinv.opened.imp ?_)
    intro fr roi' h
    exact hent.find_old _ _ _ h
  · intro fr hfr
    rcases List.mem_cons.mp hfr with rfl | hfr
    · exact hlink
    · rw [hent.parent_old _ (hinv.frame_lt hfr)]
      exact hinv.linked fr hfr
  · intro outer fr rest h
    cases outer with
    | nil =>
        injection h with h₁ h₂
        rw [← h₁, ← h₂]
        exact hinv.active
    | cons x outer =>
        injection h with h₁ h₂
        exact hinv.restored outer fr rest h₂
  · intro pre roi' mid h
    rcases concat_eq_append_cons h with ⟨rfl, hb, -⟩ | ⟨mid', -, hdone⟩
    · injection hb with hb
      subst hb
      refine ⟨s, hent.find_self, ?_⟩
      rw [hlink, hinv.headId_entered hent (List.append_nil pre).symm]
      exact hinv.active_eq_headId
    · obtain ⟨t, ht, hpar⟩ := hinv.entered pre roi' mid' hdone
      refine ⟨t, hent.find_old _ _ t ht, ?_⟩
      rw [hent.parent_old t (StateMap.find_lt ht), hpar, hinv.headId_entered hent hdone]
  · intro f l t ht
    cases hold : p.stateMap.find f l with
    | some u =>
        obtain ⟨pre, mid, hdone⟩ := hinv.known f l u hold
        exact ⟨pre, mid ++ [.enter roi], by rw [hdone]; simp⟩
    | none =>
        obtain ⟨h₁, h₂⟩ := hent.find_new f l t hold ht
        exact ⟨done, [], by rw [h₁, h₂]⟩

/-- Leaving the innermost ROI: it is the one that closes, and what was
active before it is active again. -/
theorem nestInv_leave {fr : Frame} (hinv : NestInv done p (fr :: frames)) :
    (p.endState fr.id).1.activeState = fr.before
      ∧ (p.endState fr.id).2 = some fr.id
      ∧ NestInv (done ++ [.leave]) (p.endState fr.id).1 frames := by
  obtain ⟨hclosed, hmap, hact⟩ := endState_of_active hinv.active fr.id
  rw [hinv.linked fr (List.mem_cons_self ..)] at hact
  refine ⟨hact, hclosed, ?_, ?_, ?_, ?_, ?_, ?_⟩
  · rw [hact]
    exact hinv.restored [] fr frames rfl
  · rw [openRois_append_singleton, hmap]
    have hopened := hinv.opened
    generalize openRois done = rois at hopened
    cases hopened with
    | cons _ h => exact h
  · intro fr' hfr'
    rw [hmap]
    exact hinv.linked fr' (List.mem_cons_of_mem _ hfr')
  · intro outer fr' rest h
    exact hinv.restored (fr :: outer) fr' rest (by rw [h]; rfl)
  · intro pre roi mid h
    rw [hmap]
    rcases concat_eq_append_cons h with ⟨-, hb, -⟩ | ⟨mid', -, hdone⟩
    · cases hb
    · exact hinv.entered pre roi mid' hdone
  · intro f l s hs
    rw [hmap] at hs
    obtain ⟨pre, mid, hdone⟩ := hinv.known f l s hs
    exact ⟨pre, mid ++ [.leave], by rw [hdone]; simp⟩

end Step

-- ============================================================== the theorem

/-- Under one enclosing ROI, the parent link is the active state. -/
theorem parent_of_same {done bs : List Bracket} {p : Producer} {frames : List Frame}
    {roi : Roi} (hinv : NestInv done p frames)
    (hsame : SameEnclosing (done ++ .enter roi :: bs)) :
    (p.getState roi.1 roi.2).1.stateMap.parent (p.getState roi.1 roi.2).2
      = p.activeState := by
  have hent := getState_entered p roi.1 roi.2
  generalize p.getState roi.1 roi.2 = r at hent
  obtain ⟨p', s⟩ := r
  cases hold : p.stateMap.find roi.1 roi.2 with
  | none => exact hent.parent_new hold
  | some t =>
      -- entered before, under the same enclosing ROI as now
      obtain ⟨pre, mid, hdone⟩ := hinv.known roi.1 roi.2 t hold
      obtain ⟨u, hu, hpar⟩ := hinv.entered pre roi mid hdone
      have hsu : s = u := by
        have h := (hent.find_old _ _ u hu).symm.trans hent.find_self
        injection h with h
        exact h.symm
      subst hsu
      rw [hent.parent_old s (StateMap.find_lt hu), hpar, hinv.active_eq_headId]
      unfold headId
      rw [hsame pre roi mid bs (by rw [hdone]; simp), hdone]

/-- A frame that is popped right hangs under what was active before
it, and in a complete run every frame is popped. -/
theorem frames_linked (bs : List Bracket) :
    ∀ {p : Producer} {frames : List Frame}, WellBracketed frames.length bs →
      Stacks p frames bs → (∀ fr ∈ frames, fr.id < p.stateMap.states.length) →
      ∀ fr ∈ frames, p.stateMap.parent fr.id = fr.before := by
  induction bs with
  | nil =>
      intro p frames hwell _ _ fr hfr
      rw [List.length_eq_zero_iff.mp hwell] at hfr
      cases hfr
  | cons b bs ih =>
      intro p frames hwell hst hlt fr hfr
      cases b with
      | enter roi =>
          have hent := getState_entered p roi.1 roi.2
          have hrest := ih hwell hst ?_ fr (List.mem_cons_of_mem _ hfr)
          · rw [← hrest]
            exact (hent.parent_old _ (hlt fr hfr)).symm
          · intro fr' hfr'
            rcases List.mem_cons.mp hfr' with rfl | hfr'
            · exact StateMap.find_lt hent.find_self
            · exact Nat.lt_of_lt_of_le (hlt fr' hfr') hent.length_le
      | leave =>
          cases frames with
          | nil => cases hfr
          | cons top frames =>
              obtain ⟨hact, hclosed, hst⟩ := hst
              obtain ⟨-, hmap, hpar⟩ :=
                endState_of_active (active_of_endState hclosed) top.id
              rcases List.mem_cons.mp hfr with rfl | hfr
              · rw [← hpar, hact]
              · rw [← hmap]
                refine ih hwell hst ?_ fr hfr
                intro fr' hfr'
                rw [hmap]
                exact hlt fr' (List.mem_cons_of_mem _ hfr')

/-- From the brackets to the pops. -/
theorem stacks_of_same (bs : List Bracket) :
    ∀ {done : List Bracket} {p : Producer} {frames : List Frame},
      NestInv done p frames → SameEnclosing (done ++ bs) → Stacks p frames bs := by
  induction bs with
  | nil => intro done p frames _ _; exact trivial
  | cons b bs ih =>
      intro done p frames hinv hsame
      cases b with
      | enter roi =>
          have hnext := nestInv_enter hinv roi (parent_of_same hinv hsame)
          exact ih hnext (by rwa [List.append_assoc])
      | leave =>
          cases frames with
          | nil => exact trivial
          | cons fr frames =>
              obtain ⟨hact, hclosed, hnext⟩ := nestInv_leave hinv
              exact ⟨hact, hclosed, ih hnext (by rwa [List.append_assoc])⟩

/-- From the pops to the parent links of everything entered. -/
theorem nestInv_of_stacks (bs : List Bracket) :
    ∀ {done : List Bracket} {p : Producer} {frames : List Frame},
      NestInv done p frames → WellBracketed frames.length bs → Stacks p frames bs →
      ∃ p', NestInv (done ++ bs) p' [] := by
  induction bs with
  | nil =>
      intro done p frames hinv hwell _
      rw [List.length_eq_zero_iff.mp hwell] at hinv
      exact ⟨p, by rwa [List.append_nil]⟩
  | cons b bs ih =>
      intro done p frames hinv hwell hst
      cases b with
      | enter roi =>
          have hent := getState_entered p roi.1 roi.2
          have hlink := frames_linked bs hwell hst ?_ _ (List.mem_cons_self ..)
          · obtain ⟨p', hp'⟩ := ih (nestInv_enter hinv roi hlink) hwell hst
            exact ⟨p', by rwa [List.append_assoc] at hp'⟩
          · intro fr hfr
            rcases List.mem_cons.mp hfr with rfl | hfr
            · exact StateMap.find_lt hent.find_self
            · exact Nat.lt_of_lt_of_le (hinv.frame_lt hfr) hent.length_le
      | leave =>
          cases frames with
          | nil => exact absurd hwell id
          | cons fr frames =>
              obtain ⟨-, -, hst⟩ := hst
              obtain ⟨p', hp'⟩ := ih (nestInv_leave hinv).2.2 hwell hst
              exact ⟨p', by rwa [List.append_assoc] at hp'⟩

/-- One parent link, one enclosing ROI. -/
theorem NestInv.same {done : List Bracket} {p : Producer} {frames : List Frame}
    (hinv : NestInv done p frames) : SameEnclosing done := by
  intro pre roi mid post hdone
  obtain ⟨s, hs, hpar⟩ := hinv.entered pre roi _ hdone
  obtain ⟨t, ht, hpar'⟩ := hinv.entered (pre ++ .enter roi :: mid) roi post
    (by rw [hdone]; simp)
  rw [hs] at ht
  injection ht with ht
  subst ht
  rw [hpar] at hpar'
  have hfind := hinv.find_of_open hdone
  have hsplit : done = (pre ++ .enter roi :: mid) ++ .enter roi :: post := by
    rw [hdone]
    simp
  have hfind' := hinv.find_of_open hsplit
  unfold headId at hpar'
  generalize openRois pre = outer at hpar' hfind
  generalize openRois (pre ++ .enter roi :: mid) = outer' at hpar' hfind'
  cases outer with
  | nil =>
      cases outer' with
      | nil => rfl
      | cons r _ =>
          obtain ⟨t, ht⟩ := hfind' r (List.mem_cons_self ..)
          have hnone : none = p.stateMap.find r.1 r.2 := hpar'
          rw [ht] at hnone
          cases hnone
  | cons r _ =>
      obtain ⟨t, ht⟩ := hfind r (List.mem_cons_self ..)
      have hhead : p.stateMap.find r.1 r.2
          = outer'.head?.bind fun roi => p.stateMap.find roi.1 roi.2 := hpar'
      cases outer' with
      | nil =>
          rw [ht] at hhead
          cases hhead
      | cons r' _ =>
          have hfind_eq : p.stateMap.find r'.1 r'.2 = some t := hhead.symm.trans ht
          obtain ⟨h₁, h₂⟩ := StateMap.find_inj ht hfind_eq
          exact congrArg some (Prod.ext h₁ h₂)

/-- `GetState` and `EndState` form a stack over a complete run exactly
when every ROI is always entered under the same enclosing ROI. -/
theorem stacks_iff_sameEnclosing (bs : List Bracket) (hwell : WellBracketed 0 bs) :
    Stacks Producer.init [] bs ↔ SameEnclosing bs := by
  constructor
  · intro hst
    obtain ⟨p', hinv⟩ := nestInv_of_stacks bs nestInv_init hwell hst
    exact hinv.same
  · intro hsame
    exact stacks_of_same bs nestInv_init hsame

/-- A ROI nested twice under the same one. -/
theorem stacks_iff_sameEnclosing_nested :
    let outer : Roi := ("main", 1)
    let inner : Roi := ("main", 2)
    let bs := [.enter outer, .enter inner, .leave, .enter inner, .leave, .leave]
    WellBracketed 0 bs ∧ SameEnclosing bs := by
  intro outer inner bs
  have hwell : WellBracketed 0 bs := by simp [bs, WellBracketed]
  refine ⟨hwell, (stacks_iff_sameEnclosing bs hwell).mp ?_⟩
  simp only [bs, Stacks]
  decide

/-- Recursion: the inner entry of a ROI that is already open has no
enclosing parent link, so leaving it makes nothing active. -/
theorem not_stacks_recursive :
    let roi : Roi := ("walk", 7)
    let bs := [.enter roi, .enter roi, .leave, .leave]
    WellBracketed 0 bs ∧ ¬ Stacks Producer.init [] bs := by
  intro roi bs
  refine ⟨by simp [bs, WellBracketed], ?_⟩
  simp only [bs, Stacks]
  decide

end Carmot.Texas
