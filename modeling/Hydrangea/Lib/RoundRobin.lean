import Mathlib.Data.List.Count
import Mathlib.Data.List.Nodup

/-! Taking turns around a list that may grow at its end: who is next, and whom one round
visits.
-/

namespace RoundRobin

variable {α : Type*} {old xs seen : List α} {t x y : α}

/-- `y` has its turn after `x`: it is right behind it, or first when nothing is. -/
def Follows (xs : List α) (x y : α) : Prop :=
  ∃ pre post, xs = pre ++ x :: post ∧ post.head?.or xs.head? = some y

/-- Without repetitions, any split of the list at `x` shows who is next. -/
theorem Follows.next {pre post : List α} (h : Follows xs x y) (nodup : xs.Nodup)
    (split : xs = pre ++ x :: post)
    : post.head?.or xs.head? = some y := by
  obtain ⟨pre', post', split', next⟩ := h
  have notPre : x ∉ pre := by
    rw [split] at nodup
    exact fun member => (List.nodup_append.mp nodup).2.2 x member x (by simp) rfl
  have notPost : x ∉ post := by
    rw [split] at nodup
    exact (List.nodup_cons.mp (List.nodup_append.mp nodup).2.1).1
  obtain ⟨-, -, rfl⟩ :=
    (List.append_cons_inj_of_notMem notPre notPost).mp (split.symm.trans split')
  exact next

/-- Who is next is on the list. -/
theorem Follows.mem (h : Follows xs x y) : y ∈ xs := by
  obtain ⟨pre, post, split, next⟩ := h
  rcases Option.or_eq_some_iff.mp next with behind | ⟨-, first⟩
  · rw [split]
    exact List.mem_append_right _ (List.mem_cons_of_mem _ (List.mem_of_mem_head? behind))
  · exact List.mem_of_mem_head? first

/-- On a list of two or more, the turn goes to another one. -/
theorem Follows.ne (h : Follows xs x y) (nodup : xs.Nodup) (two : 2 ≤ xs.length) : y ≠ x := by
  rintro rfl
  obtain ⟨pre, post, rfl, next⟩ := h
  obtain ⟨-, last, apart⟩ := List.nodup_append.mp nodup
  rcases Option.or_eq_some_iff.mp next with behind | ⟨none, first⟩
  · exact (List.nodup_cons.mp last).1 (List.mem_of_mem_head? behind)
  · obtain rfl := List.head?_eq_none_iff.mp none
    cases pre with
    | nil => simp at two
    | cons z pre =>
        obtain rfl : z = y := by simpa using first
        exact apart z (by simp) z (by simp) rfl

/-- Whom the turns since that of `t` have visited, in order, up to `x`: the list was `old` then
and is `xs` now. Either they have stayed behind `t` or they have come round to the front, and
then past everyone who was behind `t` at first.
-/
inductive Since (old : List α) (t : α) (xs seen : List α) (x : α) : Prop where
  | behind (before rest : List α) (list : xs = before ++ t :: (seen ++ rest)) (part : old ⊆ xs)
    (now : (t :: seen).getLast? = some x)
  | round (front back after new : List α)
    (list : xs = front ++ x :: (back ++ t :: (after ++ new)))
    (part : old ⊆ front ++ x :: (back ++ t :: after)) (past : seen = after ++ (front ++ [x]))

/-- At its own turn nobody has been visited since. -/
theorem Since.start (member : t ∈ xs) : Since xs t xs [] t := by
  obtain ⟨before, rest, list⟩ := List.append_of_mem member
  exact .behind before rest list (List.Subset.refl _) rfl

/-- A list that grows at its end keeps what has been visited. -/
theorem Since.grow (h : Since old t xs seen x) (z : α) : Since old t (xs ++ [z]) seen x := by
  cases h with
  | behind before rest list part now =>
      refine .behind before (rest ++ [z]) ?_ ?_ now
      · simp [list]
      · exact fun u member => List.mem_append_left _ (part member)
  | round front back after new list part past =>
      exact .round front back after (new ++ [z]) (by simp [list]) part past

/-- The next turn, if it is not that of `t`, is one more visit. -/
theorem Since.visit (h : Since old t xs seen x) (nodup : xs.Nodup) (next : Follows xs x y)
    (other : y ≠ t)
    : Since old t xs (seen ++ [y]) y := by
  cases h with
  | behind before rest list part now =>
      obtain ⟨init, last⟩ := List.getLast?_eq_some_iff.mp now
      have split : xs = (before ++ init) ++ x :: rest := by
        rw [list, ← List.cons_append, last]
        simp
      rcases Option.or_eq_some_iff.mp (next.next nodup split) with behind | ⟨none, first⟩
      · obtain ⟨rest, rfl⟩ := List.head?_eq_some_iff.mp behind
        refine .behind before rest ?_ part ?_
        · simp [list]
        · simp [List.getLast?_cons]
      · obtain rfl := List.head?_eq_none_iff.mp none
        rw [List.append_nil] at list
        cases before with
        | nil =>
            rw [list] at first
            exact absurd (Option.some.inj first).symm other
        | cons z back =>
            obtain rfl : z = y := by simpa [list] using first
            exact .round [] back seen [] (by simp [list]) (by simpa [list] using part) rfl
  | round front back after new list part past =>
      cases back with
      | nil =>
          have reached := next.next nodup list
          exact absurd (Option.some.inj reached).symm other
      | cons z back =>
          obtain rfl : z = y := by simpa using next.next nodup list
          exact .round (front ++ [x]) back after new (by simp [list]) (by simpa using part)
            (by simp [past])

/-- When the turn comes back to `t`, everyone else who was on the list at its last turn has been
visited exactly once.
-/
theorem Since.count_eq_one [DecidableEq α] (h : Since old t xs seen x) (nodup : xs.Nodup)
    (next : Follows xs x t) {u : α} (member : u ∈ old) (other : u ≠ t)
    : seen.count u = 1 := by
  cases h with
  | behind before rest list part now =>
      obtain ⟨init, last⟩ := List.getLast?_eq_some_iff.mp now
      have split : xs = (before ++ init) ++ x :: rest := by
        rw [list, ← List.cons_append, last]
        simp
      have once : (before ++ t :: (seen ++ rest)).Nodup := list ▸ nodup
      obtain ⟨-, tail, apart⟩ := List.nodup_append.mp once
      have alone := (List.nodup_cons.mp tail).1
      rcases Option.or_eq_some_iff.mp (next.next nodup split) with behind | ⟨none, first⟩
      · exact absurd (List.mem_append_right _ (List.mem_of_mem_head? behind)) alone
      · obtain rfl := List.head?_eq_none_iff.mp none
        cases before with
        | nil =>
            have visited : u ∈ seen := by simpa [list, other] using part member
            exact List.count_eq_one_of_mem (List.nodup_append.mp tail.of_cons).1 visited
        | cons z before =>
            obtain rfl : z = t := by simpa [list] using first
            exact absurd rfl (apart z (by simp) z (by simp))
  | round front back after new list part past =>
      have reached := next.next nodup list
      have once : (front ++ x :: (back ++ t :: (after ++ new))).Nodup := list ▸ nodup
      cases back with
      | cons z back =>
          obtain rfl : z = t := by simpa using reached
          have tail := (List.nodup_cons.mp (List.nodup_append.mp once).2.1).2
          exact absurd (by simp) (List.nodup_cons.mp tail).1
      | nil =>
          have visited : u ∈ seen := by
            have inside := part member
            simp only [List.nil_append, List.mem_append, List.mem_cons, other, false_or] at inside
            simp only [past, List.mem_append, List.mem_singleton]
            tauto
          refine List.count_eq_one_of_mem ?_ visited
          have swapped : (front ++ [x] ++ (t :: after ++ new)).Nodup := by simpa using once
          have sub : List.Sublist (front ++ [x] ++ after) (front ++ [x] ++ (t :: after ++ new)) :=
            ((List.sublist_append_left after new).cons t).append_left _
          rw [past]
          exact List.nodup_append_comm.mp (swapped.sublist sub)

end RoundRobin
