import Hydrangea.Fs.VfsPaths
import Hydrangea.Lib.Transition

/-! Tasks that look up paths at the same time. The static `i` of `strtok` is one variable for all of
them, and the timer can switch to another task between any two calls.
-/

namespace Hydrangea

open CString

-----------------------------------------------------------------------------------------
-- The tasks
-----------------------------------------------------------------------------------------

/-- A call of `vfs_node_from_path`, with the buffer that its `kmalloc` gives. -/
structure PathCall (α : Type) where
  kmalloc : Buffer256
  root : α
  path : List UInt8

/-- Where a task is in its call. Pointers into a buffer say whose buffer it is. `left` is what the
last call of `strtok` by the task has left in `i`; no step reads it.
-/
inductive Progress (ι α : Type) where
  | before
  | loop (node : α) (token left : Option (ι × Nat))
  | found (node : α) (left : Option (ι × Nat))
  | returned (result : Option α)

/-- When a task is about to call `strtok(NULL, "/")`, `i` is what its own last call has left. -/
def Progress.Undisturbed {ι α : Type} (i : Option (ι × Nat)) : Progress ι α → Prop
  | .found _ left => i = left
  | _ => True

instance {ι α : Type} [DecidableEq ι] (i : Option (ι × Nat)) (p : Progress ι α)
    : Decidable (p.Undisturbed i) :=
  match p with
  | .found _ left => inferInstanceAs (Decidable (i = left))
  | .before | .loop .. | .returned _ => isTrue trivial

/-- The static `i` of `strtok`, and the buffer and the progress of each task. -/
structure VfsTasks (ι α : Type) where
  i : Option (ι × Nat)
  ap : ι → List UInt8
  task : ι → Progress ι α

namespace VfsTasks

open Vfs

variable {ι α : Type} [DecidableEq ι]

/-- `strtok(str, "/")`, called by a task that goes on to `progress`. -/
def cut (s : VfsTasks ι α) (t : ι) (str : Option (ι × Nat))
    (progress : (token left : Option (ι × Nat)) → Progress ι α)
    : Option (VfsTasks ι α) :=
  match str.or s.i with
  | none =>
      some { s with i := none, task := Function.update s.task t (progress none none) }
  | some (b, i) => do
      let (token, i, ap) ← strtok (s.ap b) none (some i) [slash, 0]
      some {
        i := i.map (Prod.mk b)
        ap := Function.update s.ap b ap
        task := Function.update s.task t (progress (token.map (Prod.mk b)) (i.map (Prod.mk b)))
      }

section Steps

variable (mem : α → VfsNode α) (vfsRoot : α) (calls : ι → PathCall α)

/-- A task copies its path and cuts the first token off. -/
def enter (s : VfsTasks ι α) (t : ι) : Option (VfsTasks ι α) := do
  let ap ← strcpy (calls t).kmalloc (calls t).path
  let first ← (calls t).path[0]?
  cut { s with ap := Function.update s.ap t ap } t (some (t, 0))
    (.loop (if first = slash then vfsRoot else (calls t).root))

/-- A task looks the child with the name `token` up. -/
def lookup (s : VfsTasks ι α) (t : ι) (fuel : Nat) (node : α) (token : ι × Nat)
    (left : Option (ι × Nat)) : Option (VfsTasks ι α) := do
  let child ← vfsGetChildByName mem fuel node ((s.ap token.1).drop token.2)
  let progress : Progress ι α :=
    match child with
    | none => .returned none
    | some node => .found node left
  some { s with task := Function.update s.task t progress }

/-- What a task does until the timer may switch to another one. -/
def next (fuel : Nat) (s : VfsTasks ι α) (t : ι) : Option (VfsTasks ι α) :=
  match s.task t with
  | .before => enter vfsRoot calls s t
  | .loop node none _ => some { s with task := Function.update s.task t (.returned (some node)) }
  | .loop node (some token) left => lookup mem s t fuel node token left
  | .found node _ => cut s t none (.loop node)
  | .returned _ => none

/-- All interleavings of one call by each task, whatever `strtok` was used for before. -/
def system : TransitionSystem (VfsTasks ι α) ι where
  init s := ∀ t, s.task t = .before
  step s t s' := ∃ fuel, next mem vfsRoot calls fuel s t = some s'

/-- The result of a call that no other call comes between. -/
def Alone (t : ι) (r : Option α) : Prop :=
  ∃ fuel, ∀ i, vfsNodeFromPath mem vfsRoot (calls t).kmalloc fuel i (calls t).root (calls t).path
    = some r

def SameResults (s : VfsTasks ι α) : Prop :=
  ∀ t r, s.task t = .returned r → Alone mem vfsRoot calls t r

end Steps

/-- The step of the task finds `i` as it should be. -/
def Undisturbed (s : VfsTasks ι α) (t : ι) : Prop :=
  (s.task t).Undisturbed s.i

section Results

variable {mem : α → VfsNode α} {vfsRoot : α} {calls : ι → PathCall α}

/-- What is true of a task that nothing has disturbed: the rest of the loop leads to the result of
the call alone.
-/
def Follows (mem : α → VfsNode α) (vfsRoot : α) (calls : ι → PathCall α) (t : ι)
    (ap : List UInt8) : Progress ι α → Prop
  | .before => True
  | .loop node token left =>
      ∃ token' left', token = token'.map (Prod.mk t) ∧ left = left'.map (Prod.mk t)
        ∧ ∀ fuel r, followTokens mem fuel node token' left' ap = some r
          → Alone mem vfsRoot calls t r
  | .found node left =>
      ∃ left', left = left'.map (Prod.mk t)
        ∧ ∀ token i ap', strtok ap left' none [slash, 0] = some (token, i, ap')
          → ∀ fuel r, followTokens mem fuel node token i ap' = some r
            → Alone mem vfsRoot calls t r
  | .returned r => Alone mem vfsRoot calls t r

def Inv (mem : α → VfsNode α) (vfsRoot : α) (calls : ι → PathCall α) (s : VfsTasks ι α) : Prop :=
  ∀ t, Follows mem vfsRoot calls t (s.ap t) (s.task t)

variable {s s' : VfsTasks ι α} {t : ι}

/-- Changing the progress of one task keeps the others. -/
theorem Inv.update (h : Inv mem vfsRoot calls s) {i : Option (ι × Nat)} {ap : List UInt8}
    {progress : Progress ι α} (follows : Follows mem vfsRoot calls t ap progress)
    : Inv mem vfsRoot calls
        { i := i, ap := Function.update s.ap t ap, task := Function.update s.task t progress } := by
  intro u
  by_cases same : u = t
  · subst same
    simp only [Function.update_self]
    exact follows
  · simp only [Function.update_of_ne same]
    exact h u

/-- A task enters the loop as the call alone does. -/
theorem Inv.enter (h : Inv mem vfsRoot calls s) (entered : enter vfsRoot calls s t = some s')
    : Inv mem vfsRoot calls s' := by
  obtain ⟨ap, copied, entered⟩ := Option.bind_eq_some_iff.mp entered
  obtain ⟨first, absolute, entered⟩ := Option.bind_eq_some_iff.mp entered
  obtain ⟨⟨token, i, ap'⟩, tokenCut, entered⟩ := Option.bind_eq_some_iff.mp entered
  simp only [Function.update_self] at tokenCut
  obtain rfl := Option.some.inj entered
  simp only [Function.update_idem]
  refine h.update ⟨token, i, rfl, rfl, fun fuel r followed => ⟨fuel, fun i₀ => ?_⟩⟩
  have anyBefore : strtok ap i₀ (some 0) [slash, 0] = strtok ap none (some 0) [slash, 0] := rfl
  simp only [vfsNodeFromPath, copied, anyBefore, tokenCut, absolute, Option.bind_eq_bind,
    Option.bind_some]
  exact followed

/-- A task looks a child up as the call alone does. -/
theorem Inv.lookup (h : Inv mem vfsRoot calls s) {fuel : Nat} {node : α} {token : ι × Nat}
    {left : Option (ι × Nat)} (here : s.task t = .loop node (some token) left)
    (looked : lookup mem s t fuel node token left = some s')
    : Inv mem vfsRoot calls s' := by
  have follows := h t
  rw [here] at follows
  obtain ⟨token', left', isToken, isLeft, follows⟩ := follows
  obtain ⟨p, rfl, rfl⟩ := Option.map_eq_some_iff.mp isToken.symm
  obtain ⟨child, found, looked⟩ := Option.bind_eq_some_iff.mp looked
  obtain rfl := Option.some.inj looked
  have kept : s.ap = Function.update s.ap t (s.ap t) := (Function.update_eq_self t s.ap).symm
  rw [kept]
  refine h.update ?_
  cases child with
  | none =>
      refine follows (fuel + 1) none ?_
      simp only [followTokens, found, Option.bind_eq_bind, Option.bind_some]
  | some c =>
      refine ⟨left', isLeft, fun token i ap' tokenCut rest r followed => ?_⟩
      -- one amount of fuel is enough for the child and for the rest of the loop
      refine follows (max fuel rest + 1) r ?_
      simp only [followTokens, vfsGetChildByName_mono (le_max_left fuel rest) found, tokenCut,
        Option.bind_eq_bind, Option.bind_some]
      exact followTokens_mono (le_max_right fuel rest) followed

/-- A task cuts the next token off as the call alone does, if `i` is as it has left it. -/
theorem Inv.cut (h : Inv mem vfsRoot calls s) {node : α} {left : Option (ι × Nat)}
    (here : s.task t = .found node left) (undisturbed : s.i = left)
    (tokenCut : cut s t none (.loop node) = some s')
    : Inv mem vfsRoot calls s' := by
  have follows := h t
  rw [here] at follows
  obtain ⟨left', rfl, follows⟩ := follows
  rw [VfsTasks.cut, Option.none_or, undisturbed] at tokenCut
  cases left' with
  | none =>
      obtain rfl := Option.some.inj tokenCut
      have kept : s.ap = Function.update s.ap t (s.ap t) := (Function.update_eq_self t s.ap).symm
      rw [kept]
      exact h.update ⟨none, none, rfl, rfl, follows none none (s.ap t) rfl⟩
  | some i =>
      obtain ⟨⟨token, i', ap'⟩, cutHere, rest⟩ := Option.bind_eq_some_iff.mp tokenCut
      obtain rfl := Option.some.inj rest
      exact h.update ⟨token, i', rfl, rfl, follows token i' ap' cutHere⟩

/-- A step keeps the invariant, if it is undisturbed. -/
theorem Inv.next (h : Inv mem vfsRoot calls s) (undisturbed : s.Undisturbed t) {fuel : Nat}
    (taken : next mem vfsRoot calls fuel s t = some s')
    : Inv mem vfsRoot calls s' := by
  unfold VfsTasks.next at taken
  unfold Undisturbed at undisturbed
  cases here : s.task t with
  | before =>
      rw [here] at taken
      exact h.enter taken
  | loop node token left =>
      rw [here] at taken
      cases token with
      | some token => exact h.lookup here taken
      | none =>
          obtain rfl := Option.some.inj taken
          have follows := h t
          rw [here] at follows
          obtain ⟨token', left', isToken, -, follows⟩ := follows
          obtain rfl := Option.map_eq_none_iff.mp isToken.symm
          have kept : s.ap = Function.update s.ap t (s.ap t) :=
            (Function.update_eq_self t s.ap).symm
          rw [kept]
          exact h.update (follows 1 (some node) rfl)
  | found node left =>
      rw [here] at taken undisturbed
      exact h.cut here undisturbed taken
  | returned r =>
      rw [here] at taken
      cases taken

/-- In every interleaving in which each task finds `i` as its own last call of `strtok` has left
it, every result is the result of the call alone. The invariant says of each task that its rounds
so far are those of the call alone, up to the cursor, which the condition gives back to it.
-/
theorem run_sameResults {steps : List (VfsTasks ι α × ι)}
    (run : (system mem vfsRoot calls).Run s steps)
    (undisturbed : ∀ taken ∈ steps, taken.1.Undisturbed taken.2)
    : SameResults mem vfsRoot calls s := by
  have inv : Inv mem vfsRoot calls s := by
    refine (run.restrict undisturbed).invariant ?_ ?_
    · intro s before t
      rw [before t]
      trivial
    · rintro s t s' inv ⟨undisturbed, fuel, taken⟩
      exact inv.next undisturbed taken
  intro t r returned
  have follows := inv t
  rwa [returned] at follows

end Results

-----------------------------------------------------------------------------------------
-- Two tasks
-----------------------------------------------------------------------------------------

section Examples

/-- One task looks `/h/y` up, the other one `/`. -/
def homeCalls : Bool → PathCall (Fin 3)
  | false => ⟨zeros, homeRoot, [slash, 0x68, slash, 0x79, 0]⟩
  | true => ⟨zeros, homeRoot, [slash, 0]⟩

def atHome : VfsTasks Bool (Fin 3) where
  i := none
  ap _ := []
  task _ := .before

theorem atHome_run {tasks : List Bool}
    {r : VfsTasks Bool (Fin 3) × List (VfsTasks Bool (Fin 3) × Bool)}
    (played : TransitionSystem.play (next homeNodes 0 homeCalls 3) atHome tasks = some r)
    : (system homeNodes 0 homeCalls).Run r.1 r.2 := by
  have initial : (system homeNodes 0 homeCalls).init atHome := fun _ => rfl
  have sound (s : VfsTasks Bool (Fin 3)) (t : Bool) (s' : VfsTasks Bool (Fin 3)) (_ : True)
      (taken : next homeNodes 0 homeCalls 3 s t = some s')
      : (system homeNodes 0 homeCalls).step s t s' ∧ True :=
    ⟨⟨3, taken⟩, trivial⟩
  exact (TransitionSystem.Run.of_play sound initial trivial played).1

def result (s : VfsTasks Bool (Fin 3)) (t : Bool) : Option (Option (Fin 3)) :=
  match s.task t with
  | .returned r => some r
  | _ => none

theorem returned_of_result {s : VfsTasks Bool (Fin 3)} {t : Bool} {r : Option (Fin 3)}
    (h : result s t = some r)
    : s.task t = .returned r := by
  unfold result at h
  split at h
  · next here => rw [here, Option.some.inj h]
  · cases h

instance (s : VfsTasks ι α) (t : ι) : Decidable (s.Undisturbed t) :=
  inferInstanceAs (Decidable ((s.task t).Undisturbed s.i))

/-- One task returns before the other one calls. -/
theorem run_sameResults_oneByOne
    : ∃ s steps, (system homeNodes 0 homeCalls).Run s steps
        ∧ s.task false = .returned (some 2) ∧ s.task true = .returned (some 0)
        ∧ SameResults homeNodes 0 homeCalls s := by
  have returns : (TransitionSystem.play (next homeNodes 0 homeCalls 3) atHome
      [true, true, false, false, false, false, false, false]).isSome = true := by
    decide +kernel
  obtain ⟨⟨s, steps⟩, played⟩ := Option.isSome_iff_exists.mp returns
  have facts : ∀ r ∈ TransitionSystem.play (next homeNodes 0 homeCalls 3) atHome
      [true, true, false, false, false, false, false, false],
      result r.1 false = some (some 2) ∧ result r.1 true = some (some 0)
        ∧ ∀ taken ∈ r.2, taken.1.Undisturbed taken.2 := by
    decide +kernel
  obtain ⟨resultY, resultRoot, undisturbed⟩ := facts _ played
  exact ⟨s, steps, atHome_run played, returned_of_result resultY, returned_of_result resultRoot,
    run_sameResults (atHome_run played) undisturbed⟩

/-- A task that looks `/` up leaves null in `i`, and the other one takes `/h` for `/h/y`. -/
theorem run_not_sameResults
    : ¬ ∀ (mem : Fin 3 → VfsNode (Fin 3)) (vfsRoot : Fin 3) (calls : Bool → PathCall (Fin 3))
        (s : VfsTasks Bool (Fin 3)) (steps : List (VfsTasks Bool (Fin 3) × Bool)),
        (system mem vfsRoot calls).Run s steps → SameResults mem vfsRoot calls s := by
  intro claim
  have returns : (TransitionSystem.play (next homeNodes 0 homeCalls 3) atHome
      [false, false, false, true, true, false]).isSome = true := by
    decide +kernel
  obtain ⟨⟨s, steps⟩, played⟩ := Option.isSome_iff_exists.mp returns
  have facts : ∀ r ∈ TransitionSystem.play (next homeNodes 0 homeCalls 3) atHome
      [false, false, false, true, true, false], result r.1 false = some (some 1) := by
    decide +kernel
  have returned := returned_of_result (facts _ played)
  obtain ⟨fuel, alone⟩ := claim homeNodes 0 homeCalls s steps (atHome_run played) false _ returned
  have right : vfsNodeFromPath homeNodes 0 zeros 5 none 0 [slash, 0x68, slash, 0x79, 0]
      = some (some 2) := by
    decide +kernel
  have wrong := vfsNodeFromPath_mono (le_max_left fuel 5) (alone none)
  rw [homeCalls, vfsNodeFromPath_mono (le_max_right fuel 5) right] at wrong
  cases wrong

end Examples

end VfsTasks

end Hydrangea
