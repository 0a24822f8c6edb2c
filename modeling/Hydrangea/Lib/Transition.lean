import Mathlib.Tactic
import Mathlib.Logic.Relation

/-! Labelled transition systems, the states they reach, and invariants of whole runs.
A run may be restricted to the steps that meet a condition on the state before the step.
-/

/-- States, labelled steps and the states a run may start in. -/
structure TransitionSystem (State Label : Type*) where
  init : State → Prop
  step : State → Label → State → Prop

namespace TransitionSystem

variable {State Label : Type*}

/-- The states of the runs of a system. -/
inductive Reachable (sys : TransitionSystem State Label) : State → Prop where
  | start {s} (initial : sys.init s) : sys.Reachable s
  | next {s label s'} (earlier : sys.Reachable s) (taken : sys.step s label s')
    : sys.Reachable s'

/-- The same system, taking only the steps whose source state and label meet `ok`. -/
def restrict (sys : TransitionSystem State Label) (ok : State → Label → Prop)
    : TransitionSystem State Label where
  init := sys.init
  step s label s' := ok s label ∧ sys.step s label s'

/-- A predicate that holds at the start and that steps keep holds in every state of every
run, by induction on the run.
-/
theorem Reachable.invariant {sys : TransitionSystem State Label} {Inv : State → Prop}
    (initial : ∀ s, sys.init s → Inv s)
    (preserved : ∀ s label s', Inv s → sys.step s label s' → Inv s')
    {s : State} (reached : sys.Reachable s)
    : Inv s := by
  induction reached with
  | start h => exact initial _ h
  | next _ taken ih => exact preserved _ _ _ ih taken

/-- The runs of a system, each with the state it ends in and the steps taken so far: the
state before each step and its label, latest first.
-/
inductive Run (sys : TransitionSystem State Label) : State → List (State × Label) → Prop where
  | start {s} (initial : sys.init s) : sys.Run s []
  | next {s label s' steps} (earlier : sys.Run s steps) (taken : sys.step s label s')
    : sys.Run s' ((s, label) :: steps)

/-- A run ends in a state that the system reaches, by induction on the run. -/
theorem Run.reachable {sys : TransitionSystem State Label} {s : State}
    {steps : List (State × Label)} (run : sys.Run s steps)
    : sys.Reachable s := by
  induction run with
  | start initial => exact .start initial
  | next _ taken ih => exact .next ih taken

/-- A run all of whose steps meet a condition is a run of the restricted system, by induction
on the run.
-/
theorem Run.restrict {sys : TransitionSystem State Label} {ok : State → Label → Prop}
    {s : State} {steps : List (State × Label)} (run : sys.Run s steps)
    (meets : ∀ taken ∈ steps, ok taken.1 taken.2)
    : (sys.restrict ok).Reachable s := by
  induction run with
  | start initial => exact .start initial
  | next _ taken ih =>
      exact .next (ih (fun step member => meets step (List.mem_cons_of_mem _ member)))
        ⟨meets _ (List.mem_cons_self ..), taken⟩

/-- The states before the steps of a run end runs of their own, which take some of its
steps, by induction on the run.
-/
theorem Run.before {sys : TransitionSystem State Label} {s : State}
    {steps : List (State × Label)} (run : sys.Run s steps) {s' : State} {label : Label}
    (taken : (s', label) ∈ steps)
    : ∃ earlier, sys.Run s' earlier ∧ earlier ⊆ steps := by
  induction run with
  | start => cases taken
  | next earlier _ ih =>
      rcases List.mem_cons.mp taken with last | before
      · obtain ⟨rfl, rfl⟩ := Prod.mk.inj last
        exact ⟨_, earlier, List.subset_cons_self _ _⟩
      · obtain ⟨steps, run, part⟩ := ih before
        exact ⟨steps, run, List.Subset.trans part (List.subset_cons_self _ _)⟩

/-- The states and steps that a function goes through under a list of labels, both latest
first.
-/
def play (f : State → Label → Option State) (s : State)
    : List Label → Option (State × List (State × Label))
  | [] => some (s, [])
  | label :: labels =>
      (play f s labels).bind (fun r =>
        (f r.1 label).map (fun s' => (s', (r.1, label) :: r.2)))

/-- What a function goes through has the labels it was given, by induction on them. -/
theorem play_labels {f : State → Label → Option State} {s : State} {labels : List Label}
    {r : State × List (State × Label)} (played : play f s labels = some r)
    : r.2.map Prod.snd = labels := by
  induction labels generalizing r with
  | nil =>
      obtain rfl := Option.some.inj played
      rfl
  | cons label labels ih =>
      obtain ⟨earlier, before, played⟩ := Option.bind_eq_some_iff.mp played
      obtain ⟨s', -, rfl⟩ := Option.map_eq_some_iff.mp played
      rw [List.map_cons, ih before]

/-- What a function goes through is a run when it takes steps of the system, as long as an
invariant holds, by induction on the labels.
-/
theorem Run.of_play {sys : TransitionSystem State Label} {f : State → Label → Option State}
    {Inv : State → Prop}
    (sound : ∀ s label s', Inv s → f s label = some s' → sys.step s label s' ∧ Inv s')
    {s : State} (start : sys.init s) (inv : Inv s) {labels : List Label}
    {r : State × List (State × Label)} (played : play f s labels = some r)
    : sys.Run r.1 r.2 ∧ Inv r.1 := by
  induction labels generalizing r with
  | nil =>
      obtain rfl := Option.some.inj played
      exact ⟨.start start, inv⟩
  | cons label labels ih =>
      obtain ⟨⟨s', steps⟩, earlier, played⟩ := Option.bind_eq_some_iff.mp played
      obtain ⟨s'', taken, rfl⟩ := Option.map_eq_some_iff.mp played
      obtain ⟨run, inv'⟩ := ih earlier
      obtain ⟨step, inv''⟩ := sound s' label s'' inv' taken
      exact ⟨.next run step, inv''⟩

end TransitionSystem
