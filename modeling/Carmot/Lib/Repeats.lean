/-
Accesses that repeat what the iteration has already done.

A cell is watched from outside: the loop is entered and left, and the
cell is accessed. An access that repeats an earlier one of the same
iteration, of the same kind, changes neither what an iteration does to
the cell first nor whether it writes, and that is all its usage depends
on. So a trace without such accesses has the same usage
(`Thinned.usage_eq`).
-/
import Mathlib.Data.List.Forall2
import Mathlib.Data.List.Induction
import Carmot.Lib.History

namespace Carmot.Lib

namespace History

/-- Two iterations do the same to the cell first, and both write it or
neither does. -/
structure Alike (it it' : List Rw) : Prop where
  head : it.head? = it'.head?
  writes : writes it = writes it'

variable {it it' : List Rw} {h h' : History}

theorem Alike.refl (it : List Rw) : Alike it it := ⟨rfl, rfl⟩

theorem Alike.isEmpty (ha : Alike it it') : it.isEmpty = it'.isEmpty := by
  have hhead := ha.head
  cases it with
  | nil =>
      cases it' with
      | nil => rfl
      | cons rw it' => cases hhead
  | cons rw it =>
      cases it' with
      | nil => cases hhead
      | cons rw' it' => rfl

theorem Alike.append (ha : Alike it it') (rw : Rw) : Alike (it ++ [rw]) (it' ++ [rw]) := by
  refine ⟨?_, ?_⟩
  · rw [List.head?_append, List.head?_append, ha.head]
  · have hwrites := ha.writes
    unfold History.writes at hwrites ⊢
    rw [List.contains_append, List.contains_append, hwrites]

/-- A repeated access makes no difference. -/
theorem Alike.repeated (ha : Alike it it') {rw : Rw} (hrw : rw ∈ it') :
    Alike (it ++ [rw]) it' := by
  refine ⟨?_, ?_⟩
  · cases hit : it' with
    | nil =>
        rw [hit] at hrw
        cases hrw
    | cons rw' rest =>
        have hhead := ha.head
        rw [hit] at hhead
        rw [List.head?_append, hhead]
        rfl
  · unfold History.writes
    rw [List.contains_append]
    have hwrites : it.contains .write = it'.contains .write := ha.writes
    rw [hwrites]
    cases rw with
    | read =>
        show (it'.contains .write || false) = _
        rw [Bool.or_false]
    | write =>
        rw [List.contains_iff_mem.mpr hrw]
        rfl

theorem Alike.readsFirst (ha : Alike it it') : readsFirst it = readsFirst it' := by
  unfold History.readsFirst
  rw [ha.head]

-- ======================================================== whole histories

/-- Iteration by iteration. -/
def AllAlike (h h' : History) : Prop := List.Forall₂ Alike h h'

theorem AllAlike.any_eq {f : List Rw → Bool} (hf : ∀ {it it'}, Alike it it' → f it = f it')
    (ha : AllAlike h h') : h.any f = h'.any f := by
  induction ha with
  | nil => rfl
  | cons hone _ ih => rw [List.any_cons, List.any_cons, hf hone, ih]

theorem AllAlike.touched (ha : AllAlike h h') : h.touched = h'.touched :=
  ha.any_eq fun hone => by rw [hone.isEmpty]

theorem AllAlike.head?_flatten (ha : AllAlike h h') : h.flatten.head? = h'.flatten.head? := by
  induction ha with
  | nil => rfl
  | cons hone _ ih =>
      rw [List.flatten_cons, List.flatten_cons, List.head?_append, List.head?_append, hone.head, ih]

theorem AllAlike.afterFirstWrite (ha : AllAlike h h') :
    Option.Rel AllAlike h.afterFirstWrite h'.afterFirstWrite := by
  unfold History.afterFirstWrite
  induction ha with
  | nil => exact .none
  | @cons it it' h h' hone hrest ih =>
      rw [List.findIdx?_cons, List.findIdx?_cons, ← hone.writes]
      cases hw : History.writes it with
      | true => exact .some hrest
      | false =>
          rw [if_neg Bool.false_ne_true, if_neg Bool.false_ne_true, Option.map_map, Option.map_map]
          cases hi : h.findIdx? History.writes with
          | none =>
              cases hi' : h'.findIdx? History.writes with
              | none => exact .none
              | some w' =>
                  rw [hi, hi'] at ih
                  cases ih
          | some w =>
              cases hi' : h'.findIdx? History.writes with
              | none =>
                  rw [hi, hi'] at ih
                  cases ih
              | some w' =>
                  rw [hi, hi'] at ih
                  exact ih

theorem AllAlike.usage_eq (ha : AllAlike h h') : h.usage = h'.usage := by
  have hinput : h.input = h'.input := by
    unfold History.input History.readsFirst
    rw [ha.head?_flatten]
  have hlevel : h.level = h'.level := by
    unfold History.level
    have hafter := ha.afterFirstWrite
    cases hw : h.afterFirstWrite with
    | none =>
        rw [hw] at hafter
        cases hw' : h'.afterFirstWrite with
        | none => rfl
        | some later' =>
            rw [hw'] at hafter
            cases hafter
    | some later =>
        rw [hw] at hafter
        cases hw' : h'.afterFirstWrite with
        | none =>
            rw [hw'] at hafter
            cases hafter
        | some later' =>
            rw [hw'] at hafter
            cases hafter with
            | some hlater =>
                dsimp only
                rw [hlater.any_eq Alike.readsFirst,
                  hlater.any_eq (f := fun it => !it.isEmpty) fun hone => by rw [hone.isEmpty]]
  unfold History.usage
  rw [hinput, hlevel]

end History

-- ================================================================= traces

/-- What is seen of a loop and a cell. -/
inductive CellEvent
  | enter
  | leave
  | access (rw : Rw)
  deriving DecidableEq, Repr

/-- The iterations so far; outside of the loop there is no current
one. -/
structure Iterations where
  finished : History
  current : Option (List Rw)
  deriving DecidableEq, Repr

namespace Iterations

/-- Nothing seen. -/
def init : Iterations := ⟨[], none⟩

/-- One more event; accesses outside of the loop are nothing to it. -/
def step (its : Iterations) : CellEvent → Iterations
  | .enter => ⟨its.finished ++ its.current.toList, some []⟩
  | .leave => ⟨its.finished ++ its.current.toList, none⟩
  | .access rw => { its with current := its.current.map (· ++ [rw]) }

/-- After a trace. -/
def after (evs : List CellEvent) : Iterations := evs.foldl step init

/-- The history of the cell. -/
def history (its : Iterations) : History := its.finished ++ its.current.toList

theorem after_concat (evs : List CellEvent) (ev : CellEvent) :
    after (evs ++ [ev]) = (after evs).step ev := by
  unfold after
  rw [List.foldl_append]
  rfl

/-- There is no iteration before the first. -/
theorem after_of_not_entered {evs : List CellEvent} (h : .enter ∉ evs) : after evs = init := by
  induction evs using List.reverseRecOn with
  | nil => rfl
  | append_singleton evs ev ih =>
      rw [after_concat, ih fun hmem => h (List.mem_append_left _ hmem)]
      cases ev with
      | enter => exact absurd (List.mem_append_right _ List.mem_cons_self) h
      | leave => rfl
      | access rw => rfl

end Iterations

/-- The access repeats one of the current iteration. -/
def RepeatsAccess (evs : List CellEvent) (rw : Rw) : Prop :=
  ∀ it ∈ (Iterations.after evs).current, rw ∈ it

/-- It does so after another access too. -/
theorem RepeatsAccess.access {evs : List CellEvent} {rw rw' : Rw} (h : RepeatsAccess evs rw) :
    RepeatsAccess (evs ++ [.access rw']) rw := by
  intro it hit
  rw [Iterations.after_concat] at hit
  obtain ⟨it', hit', rfl⟩ := Option.map_eq_some_iff.mp hit
  exact List.mem_append_left _ (h it' hit')

theorem repeatsAccess_self (evs : List CellEvent) (rw : Rw) :
    RepeatsAccess (evs ++ [.access rw]) rw := by
  intro it hit
  rw [Iterations.after_concat] at hit
  obtain ⟨it', -, rfl⟩ := Option.map_eq_some_iff.mp hit
  exact List.mem_append_right _ (List.mem_singleton.mpr rfl)

/-- The second trace is the first without accesses that repeat what it
has. -/
inductive Thinned : List CellEvent → List CellEvent → Prop
  | nil : Thinned [] []
  | keep {evs evs' : List CellEvent} (h : Thinned evs evs') (ev : CellEvent) :
      Thinned (evs ++ [ev]) (evs' ++ [ev])
  | drop {evs evs' : List CellEvent} (h : Thinned evs evs') {rw : Rw}
      (hrep : RepeatsAccess evs' rw) : Thinned (evs ++ [.access rw]) evs'

namespace Thinned

open History

/-- What the two have seen. -/
structure Seen (its its' : Iterations) : Prop where
  finished : AllAlike its.finished its'.finished
  current : Option.Rel Alike its.current its'.current

theorem Seen.history {its its' : Iterations} (hs : Seen its its') :
    AllAlike its.history its'.history := by
  obtain ⟨finished, current⟩ := its
  obtain ⟨finished', current'⟩ := its'
  obtain ⟨hfinished, hrel⟩ := hs
  have hcurrent : AllAlike current.toList current'.toList := by
    cases hrel with
    | none => exact .nil
    | some hone => exact .cons hone .nil
  exact List.rel_append hfinished hcurrent

theorem Seen.step {its its' : Iterations} (hs : Seen its its') (ev : CellEvent) :
    Seen (its.step ev) (its'.step ev) := by
  cases ev with
  | enter => exact ⟨hs.history, .some (Alike.refl [])⟩
  | leave => exact ⟨hs.history, .none⟩
  | access rw =>
      obtain ⟨finished, current⟩ := its
      obtain ⟨finished', current'⟩ := its'
      obtain ⟨hfinished, hrel⟩ := hs
      refine ⟨hfinished, ?_⟩
      cases hrel with
      | none => exact .none
      | some hone => exact .some (hone.append rw)

theorem Seen.drop {its its' : Iterations} (hs : Seen its its') {rw : Rw}
    (hrep : ∀ it ∈ its'.current, rw ∈ it) : Seen (its.step (.access rw)) its' := by
  obtain ⟨finished, current⟩ := its
  obtain ⟨finished', current'⟩ := its'
  obtain ⟨hfinished, hrel⟩ := hs
  refine ⟨hfinished, ?_⟩
  cases hrel with
  | none => exact .none
  | some hone => exact .some (hone.repeated (hrep _ rfl))

theorem seen {evs evs' : List CellEvent} (h : Thinned evs evs') :
    Seen (Iterations.after evs) (Iterations.after evs') := by
  induction h with
  | nil => exact ⟨.nil, .none⟩
  | keep _ ev ih =>
      rw [Iterations.after_concat, Iterations.after_concat]
      exact ih.step ev
  | drop _ hrep ih =>
      rw [Iterations.after_concat]
      exact ih.drop hrep

/-- Repeated accesses do not matter to the usage. -/
theorem usage_eq {evs evs' : List CellEvent} (h : Thinned evs evs') :
    (Iterations.after evs).history.usage = (Iterations.after evs').history.usage :=
  h.seen.history.usage_eq

theorem touched_eq {evs evs' : List CellEvent} (h : Thinned evs evs') :
    (Iterations.after evs).history.touched = (Iterations.after evs').history.touched :=
  h.seen.history.touched

/-- Several events of both traces. -/
theorem keeps {evs evs' : List CellEvent} (h : Thinned evs evs') (more : List CellEvent) :
    Thinned (evs ++ more) (evs' ++ more) := by
  induction more generalizing evs evs' with
  | nil =>
      rw [List.append_nil, List.append_nil]
      exact h
  | cons ev more ih =>
      rw [List.append_cons, List.append_cons evs']
      exact ih (h.keep ev)

end Thinned

end Carmot.Lib
