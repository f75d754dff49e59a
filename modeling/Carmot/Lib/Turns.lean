/-
Machines whose agents take turns.

On its turn an agent moves the state or has to wait (`step` is `none`).
A schedule is any list of turns, and the turn of an agent that waits
changes nothing; `moves` keeps the turns that were moves.

When the moves of different agents commute at every sound state
(`Independent`), the schedule does not matter: two schedules that reach
states in which nobody can move reach the same one, and each agent makes
as many moves under one as under the other (`Independent.unique`). The
one step of the argument is `Independent.pull`: an agent that can move
keeps being able to until it does, so its first move in the other run
can be pulled to the front. An agent therefore never misses a move by
being late, and every run is on its way to the one end
(`Independent.moves_le`).
-/
import Mathlib.Data.List.Perm.Basic

namespace Carmot.Lib

variable {σ τ : Type*}

-- ============================================================= schedules

/-- One turn; an agent that cannot move waits. -/
def afterTurn (step : σ → τ → Option σ) (s : σ) (t : τ) : σ := (step s t).getD s

/-- A schedule. -/
def afterTurns (step : σ → τ → Option σ) (s : σ) (ts : List τ) : σ :=
  ts.foldl (afterTurn step) s

/-- The turns of a schedule that are moves. -/
def moves (step : σ → τ → Option σ) : σ → List τ → List τ
  | _, [] => []
  | s, t :: ts =>
      match step s t with
      | none => moves step s ts
      | some s' => t :: moves step s' ts

/-- Nobody can move. -/
def Stuck (step : σ → τ → Option σ) (s : σ) : Prop := ∀ t, step s t = none

/-- Every turn of the list is a move. -/
inductive Moves (step : σ → τ → Option σ) : σ → List τ → σ → Prop
  | nil {s : σ} : Moves step s [] s
  | cons {s s' s'' : σ} {t : τ} {ts : List τ} (hstep : step s t = some s')
      (hrest : Moves step s' ts s'') : Moves step s (t :: ts) s''

section Schedules

variable {step : σ → τ → Option σ} {s s' : σ} {t : τ}

/-- A turn spent waiting. -/
theorem moves_cons_none (h : step s t = none) (ts : List τ) :
    moves step s (t :: ts) = moves step s ts
      ∧ afterTurns step s (t :: ts) = afterTurns step s ts := by
  refine ⟨?_, ?_⟩
  · rw [moves, h]
  · show afterTurns step ((step s t).getD s) ts = _
    rw [h]
    rfl

/-- A turn that is a move. -/
theorem moves_cons_some (h : step s t = some s') (ts : List τ) :
    moves step s (t :: ts) = t :: moves step s' ts
      ∧ afterTurns step s (t :: ts) = afterTurns step s' ts := by
  refine ⟨?_, ?_⟩
  · rw [moves, h]
  · show afterTurns step ((step s t).getD s) ts = _
    rw [h]
    rfl

/-- A schedule does what its moves do. -/
theorem moves_run (step : σ → τ → Option σ) (ts : List τ) :
    ∀ s, Moves step s (moves step s ts) (afterTurns step s ts) := by
  induction ts with
  | nil => intro s; exact .nil
  | cons t ts ih =>
      intro s
      cases hstep : step s t with
      | none =>
          rw [(moves_cons_none hstep ts).1, (moves_cons_none hstep ts).2]
          exact ih s
      | some s' =>
          rw [(moves_cons_some hstep ts).1, (moves_cons_some hstep ts).2]
          exact .cons hstep (ih s')

theorem afterTurns_append (s : σ) (ts us : List τ) :
    afterTurns step s (ts ++ us) = afterTurns step (afterTurns step s ts) us :=
  List.foldl_append

theorem moves_append (ts us : List τ) :
    ∀ s, moves step s (ts ++ us) = moves step s ts ++ moves step (afterTurns step s ts) us := by
  induction ts with
  | nil => intro s; rfl
  | cons t ts ih =>
      intro s
      rw [List.cons_append]
      cases hstep : step s t with
      | none =>
          rw [(moves_cons_none hstep _).1, (moves_cons_none hstep ts).1,
            (moves_cons_none hstep ts).2]
          exact ih s
      | some s' =>
          rw [(moves_cons_some hstep _).1, (moves_cons_some hstep ts).1,
            (moves_cons_some hstep ts).2, ih s']
          rfl

/-- No move, no change. -/
theorem Moves.eq_of_nil (h : Moves step s [] s') : s = s' := by
  cases h
  rfl

/-- What is stuck has no moves left. -/
theorem Moves.eq_nil {ts : List τ} (h : Moves step s ts s') (hstuck : Stuck step s) :
    ts = [] := by
  cases h with
  | nil => rfl
  | @cons _ s'' _ t ts hstep _ =>
      rw [hstuck t] at hstep
      cases hstep

end Schedules

-- ========================================================== independence

/-- At sound states the moves of different agents commute. -/
structure Independent (step : σ → τ → Option σ) (sound : σ → Prop) : Prop where
  keeps : ∀ {s s' t}, sound s → step s t = some s' → sound s'
  diamond : ∀ {s a b t u}, sound s → t ≠ u → step s t = some a → step s u = some b →
    ∃ c, step a u = some c ∧ step b t = some c

namespace Independent

variable {step : σ → τ → Option σ} {sound : σ → Prop}

/-- A run to the end contains the move of an agent that can move now,
and could have begun with it. -/
theorem pull (h : Independent step sound) {s s'' : σ} {us : List τ} (hrun : Moves step s us s'')
    (hstuck : Stuck step s'') :
    ∀ {t : τ} {a : σ}, sound s → step s t = some a →
      ∃ vs, Moves step a vs s'' ∧ us.Perm (t :: vs) := by
  induction hrun with
  | @nil s =>
      intro t a _ ht
      rw [hstuck t] at ht
      cases ht
  | @cons s b s'' u us hu hrest ih =>
      intro t a hs ht
      by_cases hut : t = u
      · subst hut
        rw [hu] at ht
        injection ht with ht
        subst ht
        exact ⟨us, hrest, List.Perm.refl _⟩
      · obtain ⟨c, hau, hbt⟩ := h.diamond hs hut ht hu
        obtain ⟨vs, hvs, hperm⟩ := ih hstuck (h.keeps hs hu) hbt
        refine ⟨u :: vs, .cons hau hvs, ?_⟩
        exact (hperm.cons u).trans (List.Perm.swap t u vs)

/-- Two runs to the end have the same end and the same moves, in some
order. -/
theorem unique_of_moves (h : Independent step sound) {s s' : σ} {ts : List τ}
    (hrun : Moves step s ts s') (hstuck : Stuck step s') :
    ∀ {s'' : σ} {us : List τ}, sound s → Moves step s us s'' → Stuck step s'' →
      s' = s'' ∧ ts.Perm us := by
  induction hrun with
  | @nil s =>
      intro s'' us _ hus _
      have hnil := hus.eq_nil hstuck
      subst hnil
      cases hus
      exact ⟨rfl, List.Perm.refl _⟩
  | @cons s a s' t ts ht hrest ih =>
      intro s'' us hs hus hstuck'
      obtain ⟨vs, hvs, hperm⟩ := h.pull hus hstuck' hs ht
      obtain ⟨heq, hts⟩ := ih hstuck (h.keeps hs ht) hvs hstuck'
      exact ⟨heq, (hts.cons t).trans hperm.symm⟩

/-- Two schedules to the end have the same end and the same moves, in
some order. -/
theorem unique (h : Independent step sound) {s : σ} (hs : sound s) {ts us : List τ}
    (hts : Stuck step (afterTurns step s ts)) (hus : Stuck step (afterTurns step s us)) :
    afterTurns step s ts = afterTurns step s us ∧ (moves step s ts).Perm (moves step s us) :=
  h.unique_of_moves (moves_run step ts s) hts hs (moves_run step us s) hus

/-- When every run can be brought to the end, a run makes at most the
moves of any run to the end, and is at the end once it made as many. -/
theorem moves_le (h : Independent step sound) {s : σ} (hs : sound s) (ts : List τ)
    {us : List τ} (hus : Stuck step (afterTurns step s us))
    (hends : ∃ vs, Stuck step (afterTurns step (afterTurns step s ts) vs)) :
    (moves step s ts).length ≤ (moves step s us).length
      ∧ (Stuck step (afterTurns step s ts)
        ↔ (moves step s ts).length = (moves step s us).length) := by
  obtain ⟨vs, hvs⟩ := hends
  have hlen : (moves step s ts).length + (moves step (afterTurns step s ts) vs).length
      = (moves step s us).length := by
    rw [← List.length_append, ← moves_append]
    refine (h.unique hs ?_ hus).2.length_eq
    rw [afterTurns_append]
    exact hvs
  refine ⟨by omega, ?_, ?_⟩
  · intro hstuck
    exact (h.unique hs hstuck hus).2.length_eq
  · intro heq
    have hnil : moves step (afterTurns step s ts) vs = [] := by
      apply List.eq_nil_of_length_eq_zero
      omega
    have hrest := moves_run step vs (afterTurns step s ts)
    rw [hnil] at hrest
    rw [hrest.eq_of_nil]
    exact hvs

end Independent

end Carmot.Lib
