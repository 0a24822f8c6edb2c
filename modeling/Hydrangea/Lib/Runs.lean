import Mathlib.Data.List.TakeWhile
import Mathlib.Tactic

/-! The maximal runs of the elements of a list between separators, and the list of them from left
to right.
-/

namespace Runs

variable {α : Type*} {sep : α → Prop} {s t : List α} {p q n m : Nat}

/-- The elements from `p` on, `n` of them, are no separators, and there are none of their kind
around them.
-/
structure MaximalRun (sep : α → Prop) (s : List α) (p n : Nat) : Prop where
  nonempty : 0 < n
  inside : p + n ≤ s.length
  free : ∀ j, p ≤ j → j < p + n → ∀ c ∈ s[j]?, ¬ sep c
  before : p = 0 ∨ ∃ c ∈ s[p - 1]?, sep c
  behind : p + n = s.length ∨ ∃ c ∈ s[p + n]?, sep c

/-- A maximal run goes on to the end of one that begins where it does. -/
theorem MaximalRun.length_le (h : MaximalRun sep s p n) (h' : MaximalRun sep s p m) : m ≤ n := by
  by_contra longer
  have inside := h'.inside
  rcases h.behind with last | ⟨c, here, isSep⟩
  · omega
  · exact h'.free (p + n) (by omega) (by omega) c here isSep

/-- A maximal run ends in front of those that begin behind its start. -/
theorem MaximalRun.lt_of_lt (h : MaximalRun sep s p n) (h' : MaximalRun sep s q m) (later : p < q)
    : p + n < q := by
  by_contra overlap
  rcases h'.before with first | ⟨c, here, isSep⟩
  · omega
  · exact h.free (q - 1) (by omega) (by omega) c here isSep

theorem MaximalRun.first (h : MaximalRun sep s p n) : ∃ c ∈ s[p]?, ¬ sep c := by
  have some := h.nonempty
  have inside := h.inside
  have here : s[p]? = .some s[p] := List.getElem?_eq_getElem (by omega)
  exact ⟨s[p], here, h.free p (le_refl p) (by omega) _ here⟩

/-- A maximal run between the separators in front of it and behind it. -/
theorem maximalRun_of_append {front word tail : List α} (nonempty : word ≠ [])
    (free : ∀ c ∈ word, ¬ sep c) (before : front = [] ∨ ∃ c ∈ front.getLast?, sep c)
    (behind : tail = [] ∨ ∃ c rest, tail = c :: rest ∧ sep c)
    : MaximalRun sep (front ++ (word ++ tail)) front.length word.length := by
  refine ⟨List.length_pos_iff.mpr nonempty, by simp, fun j low high c here => ?_, ?_, ?_⟩
  · rw [List.getElem?_append_right low, List.getElem?_append_left (by omega)] at here
    exact free c (List.mem_of_getElem? here)
  · rcases before with rfl | ⟨c, last, isSep⟩
    · exact .inl rfl
    · have some : 0 < front.length := by
        cases front with
        | nil => cases last
        | cons => exact Nat.succ_pos _
      rw [List.getLast?_eq_getElem?] at last
      refine .inr ⟨c, ?_, isSep⟩
      rwa [List.getElem?_append_left (by omega)]
  · rcases behind with rfl | ⟨c, rest, rfl, isSep⟩
    · exact .inl (by simp)
    · refine .inr ⟨c, ?_, isSep⟩
      rw [List.getElem?_append_right (by omega), Nat.add_sub_cancel_left,
        List.getElem?_append_right (le_refl _), Nat.sub_self]
      rfl

variable [DecidablePred sep]

/-- A list is separators, or a run between separators in front and what is behind it. -/
theorem run_cases (sep : α → Prop) [DecidablePred sep] (t : List α)
    : (t.dropWhile (sep ·) = [] ∧ ∀ c ∈ t, sep c)
      ∨ ∃ lead word tail, t = lead ++ (word ++ tail) ∧ (∀ c ∈ lead, sep c) ∧ word ≠ []
        ∧ (∀ c ∈ word, ¬ sep c) ∧ (tail = [] ∨ ∃ c rest, tail = c :: rest ∧ sep c)
        ∧ t.takeWhile (sep ·) = lead ∧ t.dropWhile (sep ·) = word ++ tail
        ∧ (word ++ tail).takeWhile (¬ sep ·) = word ∧ (word ++ tail).dropWhile (¬ sep ·) = tail := by
  have leads : ∀ c ∈ t.takeWhile (sep ·), sep c := fun c member => by
    simpa using List.mem_takeWhile_imp member
  have split := List.takeWhile_append_dropWhile (p := (sep ·)) (l := t)
  cases rest : t.dropWhile (sep ·) with
  | nil =>
      rw [rest, List.append_nil] at split
      exact .inl ⟨rfl, split ▸ leads⟩
  | cons c behind =>
      have first : ¬ sep c := by
        have stop := List.head?_dropWhile_not (fun x => decide (sep x)) t
        rw [rest] at stop
        simpa using stop
      have whole := List.takeWhile_append_dropWhile (p := (¬ sep ·)) (l := c :: behind)
      rw [rest] at split
      refine .inr ⟨_, (c :: behind).takeWhile (¬ sep ·), (c :: behind).dropWhile (¬ sep ·),
        ?_, leads, ?_, ?_, ?_, rfl, whole.symm, ?_, ?_⟩
      · rw [whole, split]
      · rw [List.takeWhile_cons_of_pos (by simpa using first)]
        exact List.cons_ne_nil _ _
      · intro c' member
        simpa using List.mem_takeWhile_imp member
      · cases tail : (c :: behind).dropWhile (¬ sep ·) with
        | nil => exact .inl rfl
        | cons e later =>
            have stop := List.head?_dropWhile_not (fun x => decide (¬ sep x)) (c :: behind)
            rw [tail] at stop
            exact .inr ⟨e, later, rfl, by simpa using stop⟩
      · rw [whole]
      · rw [whole]

/-- The starts and lengths of the runs of a list that begins at `p`. -/
def runsFrom (sep : α → Prop) [DecidablePred sep] (p : Nat) (t : List α) : List (Nat × Nat) :=
  let lead := t.takeWhile (sep ·)
  let rest := t.dropWhile (sep ·)
  let word := rest.takeWhile (¬ sep ·)
  if rest = [] then
    []
  else
    (p + lead.length, word.length)
      :: runsFrom sep (p + lead.length + word.length + 1) ((rest.dropWhile (¬ sep ·)).drop 1)
termination_by t.length
decreasing_by
  have some : 0 < (t.dropWhile (sep ·)).length := List.length_pos_iff.mpr ‹_›
  have skipped : (t.dropWhile (sep ·)).length ≤ t.length := (List.dropWhile_suffix _).length_le
  have passed : ((t.dropWhile (sep ·)).dropWhile (¬ sep ·)).length
      ≤ (t.dropWhile (sep ·)).length := (List.dropWhile_suffix _).length_le
  rw [List.length_drop]
  omega

@[simp]
theorem runsFrom_nil (sep : α → Prop) [DecidablePred sep] (p : Nat)
    : runsFrom sep p [] = [] := by
  rw [runsFrom]
  rfl

/-- The first run and the ones behind the separator that ends it, or none. -/
theorem runsFrom_cases (sep : α → Prop) [DecidablePred sep] (p : Nat) (t : List α)
    : (runsFrom sep p t = [] ∧ ∀ c ∈ t, sep c)
      ∨ ∃ lead word tail, t = lead ++ (word ++ tail) ∧ (∀ c ∈ lead, sep c) ∧ word ≠ []
        ∧ (∀ c ∈ word, ¬ sep c) ∧ (tail = [] ∨ ∃ c rest, tail = c :: rest ∧ sep c)
        ∧ runsFrom sep p t = (p + lead.length, word.length)
          :: runsFrom sep (p + lead.length + word.length + 1) (tail.drop 1) := by
  rcases run_cases sep t with
    ⟨none, all⟩ | ⟨lead, word, tail, split, leads, nonempty, free, ends, front, rest, first, behind⟩
  · refine .inl ⟨?_, all⟩
    rw [runsFrom, if_pos none]
  · refine .inr ⟨lead, word, tail, split, leads, nonempty, free, ends, ?_⟩
    rw [runsFrom, front, rest, first, behind, if_neg]
    exact List.append_ne_nil_of_left_ne_nil nonempty tail

/-- The runs of a list lie behind its start, and each behind the one in front of it, by induction on
the length of the list.
-/
theorem runsFrom_ordered (sep : α → Prop) [DecidablePred sep] (p : Nat) (t : List α)
    : (runsFrom sep p t).Pairwise (fun r r' => r.1 + r.2 < r'.1)
      ∧ ∀ r ∈ runsFrom sep p t, p ≤ r.1 := by
  induction size : t.length using Nat.strong_induction_on generalizing p t with
  | _ size ih =>
      subst size
      rcases runsFrom_cases sep p t with ⟨none, -⟩ | ⟨lead, word, tail, rfl, -, nonempty, -, -, runs⟩
      · rw [none]
        exact ⟨.nil, fun r member => absurd member List.not_mem_nil⟩
      · have positive := List.length_pos_iff.mpr nonempty
        obtain ⟨ordered, behind⟩ := ih (tail.drop 1).length (by simp; omega)
          (p + lead.length + word.length + 1) (tail.drop 1) rfl
        rw [runs]
        refine ⟨List.pairwise_cons.mpr ⟨fun r member => behind r member, ordered⟩, ?_⟩
        refine List.forall_mem_cons.mpr ⟨Nat.le_add_right _ _, fun r member => ?_⟩
        have later := behind r member
        omega

/-- The runs of the part of a list behind a separator are its maximal runs there, by induction on
the length of that part.
-/
theorem mem_runsFrom {front : List α} (before : front = [] ∨ ∃ c ∈ front.getLast?, sep c)
    (t : List α)
    : (q, m) ∈ runsFrom sep front.length t
      ↔ MaximalRun sep (front ++ t) q m ∧ front.length ≤ q := by
  induction size : t.length using Nat.strong_induction_on generalizing front t with
  | _ size ih =>
      subst size
      rcases runsFrom_cases sep front.length t with
        ⟨none, all⟩ | ⟨lead, word, tail, rfl, leads, nonempty, free, ends, runs⟩
      · rw [none]
        refine iff_of_false List.not_mem_nil (fun ⟨run, low⟩ => ?_)
        obtain ⟨c, here, notSep⟩ := run.first
        rw [List.getElem?_append_right low] at here
        exact notSep (all c (List.mem_of_getElem? here))
      · have before' : front ++ lead = [] ∨ ∃ c ∈ (front ++ lead).getLast?, sep c := by
          rcases List.eq_nil_or_concat lead with rfl | ⟨lead, c, rfl⟩
          · rwa [List.append_nil]
          · exact .inr ⟨c, by simp, leads c (by simp)⟩
        have first := maximalRun_of_append nonempty free before' ends
        rw [List.append_assoc, List.length_append] at first
        have others : (q, m) ∈ runsFrom sep (front.length + lead.length + word.length + 1)
              (tail.drop 1)
            ↔ MaximalRun sep (front ++ (lead ++ (word ++ tail))) q m
              ∧ front.length + lead.length + word.length + 1 ≤ q := by
          rcases ends with rfl | ⟨c, rest, rfl, isSep⟩
          · rw [List.drop_nil, runsFrom_nil]
            refine iff_of_false List.not_mem_nil (fun ⟨run, low⟩ => ?_)
            have inside := run.inside
            simp only [List.length_append, List.length_nil] at inside
            omega
          · have behind : front ++ lead ++ word ++ [c] = []
                ∨ ∃ c' ∈ (front ++ lead ++ word ++ [c]).getLast?, sep c' :=
              .inr ⟨c, by simp, isSep⟩
            have further := ih rest.length (by simp; omega) behind rest rfl
            simpa [Nat.add_assoc] using further
        rw [runs, List.mem_cons, others, Prod.mk.injEq]
        constructor
        · rintro (⟨rfl, rfl⟩ | ⟨run, low⟩)
          · exact ⟨first, Nat.le_add_right _ _⟩
          · exact ⟨run, by omega⟩
        · rintro ⟨run, low⟩
          rcases Nat.lt_trichotomy q (front.length + lead.length) with inLead | rfl | later
          · obtain ⟨c, here, notSep⟩ := run.first
            rw [List.getElem?_append_right low, List.getElem?_append_left (by omega)] at here
            exact absurd (leads c (List.mem_of_getElem? here)) notSep
          · exact .inl ⟨rfl, Nat.le_antisymm (first.length_le run) (run.length_le first)⟩
          · exact .inr ⟨run, first.lt_of_lt run later⟩

/-- The runs of a list are its maximal ones. -/
theorem mem_runsFrom_zero : (q, m) ∈ runsFrom sep 0 t ↔ MaximalRun sep t q m := by
  have start : ([] : List α) = [] ∨ ∃ c ∈ ([] : List α).getLast?, sep c := .inl rfl
  have whole := mem_runsFrom (q := q) (m := m) start t
  simpa using whole

end Runs
