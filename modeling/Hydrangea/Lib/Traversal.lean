import Mathlib.Logic.Function.Iterate
import Mathlib.Tactic

/-! Depth-first visits of nodes whose children depend on a choice that is made anew at each node.
They end for all sequences of choices if and only if every node leads to visits that end.
-/

namespace Traversal

/-- Which nodes have no children, and the children of the others under a choice. There may be none
when a node cannot be visited under it.
-/
structure Graph (ν γ : Type*) where
  leaf : ν → Prop
  kids : ν → γ → List ν → Prop
  unique : ∀ {n g es es'}, kids n g es → kids n g es' → es' = es

variable {ν γ : Type*} (graph : Graph ν γ)

/-- The nodes of a list and all below them are visited, with the choices made in this order. -/
inductive Visits : List ν → List γ → Prop
  | nil : Visits [] []
  | leaf {n : ν} {ns : List ν} {gs : List γ} (isLeaf : graph.leaf n) (rest : Visits ns gs)
    : Visits (n :: ns) gs
  | node {n : ν} {es ns : List ν} {g : γ} {gs gs' : List γ} (inner : ¬ graph.leaf n)
      (here : graph.kids n g es) (below : Visits es gs) (rest : Visits ns gs')
    : Visits (n :: ns) (g :: (gs ++ gs'))

/-- A node can be visited under every choice, and so can all below it. -/
inductive Safe : ν → Prop
  | leaf {n : ν} (isLeaf : graph.leaf n) : Safe n
  | node {n : ν} (total : ∀ g, ∃ es, graph.kids n g es)
      (below : ∀ g es, graph.kids n g es → ∀ c ∈ es, Safe c)
    : Safe n

def choices (σ : ℕ → γ) (m : ℕ) : List γ :=
  (List.range m).map σ

variable {graph}

/-- The choices made first and those made then. -/
theorem choices_add (σ : ℕ → γ) (m m' : ℕ)
    : choices σ (m + m') = choices σ m ++ choices (fun i => σ (m + i)) m' := by
  rw [choices, List.range_add, List.map_append, List.map_map]
  rfl

/-- The first choice and those made then. -/
theorem choices_succ (σ : ℕ → γ) (m : ℕ)
    : choices σ (m + 1) = σ 0 :: choices (fun i => σ (i + 1)) m := by
  rw [choices, List.range_succ_eq_map, List.map_cons, List.map_map]
  rfl

/-- One list after the other, by induction on the first visit. -/
theorem Visits.append {ns ns' : List ν} {gs gs' : List γ} (h : Visits graph ns gs)
    (h' : Visits graph ns' gs')
    : Visits graph (ns ++ ns') (gs ++ gs') := by
  induction h with
  | nil => exact h'
  | leaf isLeaf _ ih => exact .leaf isLeaf ih
  | node inner here below _ _ ih =>
      rw [List.cons_append, List.cons_append, List.append_assoc]
      exact .node inner here below ih

-----------------------------------------------------------------------------------------
-- Visits of safe nodes end
-----------------------------------------------------------------------------------------

/-- Visits of the nodes of a list end for every sequence of choices. -/
def Ends (graph : Graph ν γ) (ns : List ν) : Prop :=
  ∀ σ : ℕ → γ, ∃ m, Visits graph ns (choices σ m)

/-- The visit of a safe node ends, and so do those behind it, by induction on what makes it safe. -/
theorem Safe.ends {n : ν} (h : Safe graph n) {ns : List ν} (rest : Ends graph ns)
    : Ends graph (n :: ns) := by
  induction h generalizing ns with
  | leaf isLeaf =>
      intro σ
      obtain ⟨m, visits⟩ := rest σ
      exact ⟨m, .leaf isLeaf visits⟩
  | @node n total below ih =>
      by_cases isLeaf : graph.leaf n
      · intro σ
        obtain ⟨m, visits⟩ := rest σ
        exact ⟨m, .leaf isLeaf visits⟩
      intro σ
      obtain ⟨es, here⟩ := total (σ 0)
      have inner : Ends graph es := by
        have members := ih (σ 0) es here
        clear here
        induction es with
        | nil => exact fun _ => ⟨0, .nil⟩
        | cons c es further =>
            obtain ⟨first, others⟩ := List.forall_mem_cons.mp members
            exact first (further others)
      obtain ⟨m, visits⟩ := inner (fun i => σ (i + 1))
      obtain ⟨m', visits'⟩ := rest (fun i => σ (m + i + 1))
      refine ⟨m + m' + 1, ?_⟩
      rw [choices_succ, choices_add]
      exact .node isLeaf here visits visits'

/-- The next choice is made: leaves are passed, and a node is replaced by its children. -/
inductive Step (graph : Graph ν γ) : List ν → γ → List ν → Prop
  | leaf {n : ν} {ns ns' : List ν} {g : γ} (isLeaf : graph.leaf n) (rest : Step graph ns g ns')
    : Step graph (n :: ns) g ns'
  | node {n : ν} {es ns : List ν} {g : γ} (inner : ¬ graph.leaf n) (here : graph.kids n g es)
    : Step graph (n :: ns) g (es ++ ns)

/-- A choice leads to one list, by induction on the leaves passed. -/
theorem Step.unique {ns ns' ns'' : List ν} {g : γ} (h : Step graph ns g ns')
    (h' : Step graph ns g ns'')
    : ns'' = ns' := by
  induction h with
  | leaf isLeaf _ ih =>
      cases h' with
      | leaf _ rest => exact ih rest
      | node inner _ => exact absurd isLeaf inner
  | node inner here =>
      cases h' with
      | leaf isLeaf _ => exact absurd isLeaf inner
      | node _ here' => rw [graph.unique here here']

/-- A visit makes its first choice, by induction on the visit. -/
theorem Visits.step {ns : List ν} {g : γ} {gs : List γ} (h : Visits graph ns (g :: gs))
    : ∃ ns', Step graph ns g ns' ∧ Visits graph ns' gs := by
  generalize whole : g :: gs = all at h
  induction h with
  | nil => cases whole
  | leaf isLeaf _ ih =>
      obtain ⟨ns', step, visits⟩ := ih whole
      exact ⟨ns', .leaf isLeaf step, visits⟩
  | node inner here below rest _ _ =>
      obtain ⟨rfl, rfl⟩ := List.cons.inj whole
      exact ⟨_, .node inner here, below.append rest⟩

def Unsafe (graph : Graph ν γ) (ns : List ν) : Prop :=
  ∃ n ∈ ns, ¬ Safe graph n

/-- A visit without a choice is one of leaves, by induction on the visit. -/
theorem Visits.safe {ns : List ν} (h : Visits graph ns []) : ¬ Unsafe graph ns := by
  generalize none : ([] : List γ) = gs at h
  induction h with
  | nil =>
      rintro ⟨n, member, -⟩
      cases member
  | leaf isLeaf _ ih =>
      rintro ⟨n, member, notSafe⟩
      rcases List.mem_cons.mp member with rfl | later
      · exact notSafe (.leaf isLeaf)
      · exact ih none ⟨n, later, notSafe⟩
  | node => cases none

end Traversal
