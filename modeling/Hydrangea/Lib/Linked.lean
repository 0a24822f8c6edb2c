import Mathlib.Tactic
import Mathlib.Data.Finset.Card
import Mathlib.Data.Finset.Range
import Mathlib.Data.List.Chain
import Mathlib.Data.List.Nodup

/-! Lists threaded through a memory by a `next` field.
A null pointer is `none`; the cells of a chain are the addresses met on the way to null.
-/

namespace Linked

variable {α : Type*} {next next' : α → Option α}

/-- Following `next` from `p` visits exactly the cells `xs` and arrives at `q`. -/
def Path (next : α → Option α) : Option α → List α → Option α → Prop
  | p, [], q => p = q
  | p, x :: xs, q => p = some x ∧ Path next (next x) xs q

/-- Following `next` from `p` visits exactly the cells `xs` and arrives at null. -/
def Chain (next : α → Option α) (p : Option α) (xs : List α) : Prop :=
  Path next p xs none

instance Path.decidable [DecidableEq α]
    : (p : Option α) → (xs : List α) → (q : Option α) → Decidable (Path next p xs q)
  | p, [], q => inferInstanceAs (Decidable (p = q))
  | p, x :: xs, q =>
      have := Path.decidable (next x) xs q
      inferInstanceAs (Decidable (p = some x ∧ Path next (next x) xs q))

instance [DecidableEq α] (p : Option α) (xs : List α) : Decidable (Chain next p xs) :=
  inferInstanceAs (Decidable (Path next p xs none))

@[simp]
theorem path_nil {p q : Option α} : Path next p [] q ↔ p = q :=
  Iff.rfl

@[simp]
theorem path_cons {p q : Option α} {x : α} {xs : List α}
    : Path next p (x :: xs) q ↔ p = some x ∧ Path next (next x) xs q :=
  Iff.rfl

@[simp]
theorem chain_nil {p : Option α} : Chain next p [] ↔ p = none :=
  Iff.rfl

@[simp]
theorem chain_cons {p : Option α} {x : α} {xs : List α}
    : Chain next p (x :: xs) ↔ p = some x ∧ Chain next (next x) xs :=
  Iff.rfl

/-- A path through an append passes through a middle pointer, by induction on the first
part.
-/
theorem path_append {p q : Option α} {xs ys : List α}
    : Path next p (xs ++ ys) q ↔ ∃ r, Path next p xs r ∧ Path next r ys q := by
  induction xs generalizing p with
  | nil => simp
  | cons x xs ih => simp only [List.cons_append, path_cons, ih, and_assoc, exists_and_left]

/-- A path depends on `next` only at its cells, by induction on the cells. -/
theorem Path.congr {p q : Option α} {xs : List α} (h : Path next p xs q)
    (agree : ∀ x ∈ xs, next' x = next x)
    : Path next' p xs q := by
  induction xs generalizing p with
  | nil => exact h
  | cons x xs ih =>
      refine ⟨h.1, ?_⟩
      rw [agree x (by simp)]
      exact ih h.2 (fun y member => agree y (by simp [member]))

/-- A chain depends on `next` only at its cells. -/
theorem Chain.congr {p : Option α} {xs : List α} (h : Chain next p xs)
    (agree : ∀ x ∈ xs, next' x = next x)
    : Chain next' p xs :=
  Path.congr h agree

/-- A chain starts at its first cell, and at null when it has none. -/
theorem Chain.head {p : Option α} {xs : List α} (h : Chain next p xs) : p = xs.head? := by
  cases xs with
  | nil => exact h
  | cons x xs => exact h.1

/-- A chain splits at an append, the second part starting at its own first cell. -/
theorem chain_append {p : Option α} {xs ys : List α}
    : Chain next p (xs ++ ys) ↔ Path next p xs ys.head? ∧ Chain next ys.head? ys := by
  constructor
  · intro h
    obtain ⟨r, hp, hc⟩ := path_append.mp h
    have start : r = ys.head? := Chain.head hc
    subst start
    exact ⟨hp, hc⟩
  · intro ⟨hp, hc⟩
    exact path_append.mpr ⟨_, hp, hc⟩

/-- The successor of a cell in the middle of a chain is the first cell after it. -/
theorem Chain.next_eq {p : Option α} {pre post : List α} {x : α}
    (h : Chain next p (pre ++ x :: post))
    : next x = post.head? :=
  Chain.head (chain_append.mp h).2.2

/-- The cells after a cell of a chain form a chain from its successor. -/
theorem Chain.after {p : Option α} {xs : List α} {x : α} (h : Chain next p xs)
    (member : x ∈ xs)
    : ∃ ys, ys ⊆ xs ∧ Chain next (next x) ys := by
  obtain ⟨pre, post, rfl⟩ := List.append_of_mem member
  refine ⟨post, fun y inside => ?_, (chain_append.mp h).2.2⟩
  exact List.mem_append_right _ (List.mem_cons_of_mem _ inside)

/-- The successor of a cell of a chain is one of its cells. -/
theorem Chain.next_mem {p : Option α} {xs : List α} {x y : α} (h : Chain next p xs)
    (member : x ∈ xs) (link : next x = some y)
    : y ∈ xs := by
  obtain ⟨ys, part, rest⟩ := h.after member
  rw [link] at rest
  exact part (List.mem_of_mem_head? (Chain.head rest).symm)

/-- The cells from any cell of a chain on form a chain from that cell. -/
theorem Chain.suffix {p : Option α} {pre post : List α} (h : Chain next p (pre ++ post))
    : Chain next post.head? post :=
  (chain_append.mp h).2

/-- Two chains from one pointer visit the same cells, by induction on the first. -/
theorem Chain.unique {p : Option α} {xs ys : List α} (hx : Chain next p xs)
    (hy : Chain next p ys)
    : xs = ys := by
  induction xs generalizing p ys with
  | nil =>
      cases ys with
      | nil => rfl
      | cons y ys => simp [chain_nil.mp hx] at hy
  | cons x xs ih =>
      cases ys with
      | nil => simp [chain_nil.mp hy] at hx
      | cons y ys =>
          obtain rfl : x = y := Option.some.inj (hx.1.symm.trans hy.1)
          rw [ih hx.2 hy.2]

/-- No cell occurs twice in a chain: its successors would have to be met twice as well,
so the two suffixes from it would have different lengths.
-/
theorem Chain.nodup {p : Option α} {xs : List α} (h : Chain next p xs) : xs.Nodup := by
  induction xs generalizing p with
  | nil => simp
  | cons x xs ih =>
      refine List.nodup_cons.mpr ⟨fun member => ?_, ih h.2⟩
      obtain ⟨pre, post, rfl⟩ := List.append_of_mem member
      have again : Chain next (some x) (x :: post) := Chain.suffix h.2
      have same := Chain.unique again.2 h.2
      have lengths := congrArg List.length same
      simp only [List.length_append, List.length_cons] at lengths
      omega

/-- Rewiring one stretch of a chain: the cells `mid` after `w` become `mid'`, provided the
new links lead from `w` through `mid'` to the old rest and all other links are kept.
-/
theorem Chain.splice {p : Option α} {pre mid mid' post : List α} {w : α}
    (h : Chain next p (pre ++ w :: (mid ++ post)))
    (rewired : Path next' (next' w) mid' post.head?)
    (agree : ∀ x, x ∈ pre ∨ x ∈ post → next' x = next x)
    : Chain next' p (pre ++ w :: (mid' ++ post)) := by
  obtain ⟨hpre, hw⟩ := chain_append.mp h
  have hpost : Chain next post.head? post := (chain_append.mp hw.2).2
  refine chain_append.mpr ⟨hpre.congr (fun x member => agree x (Or.inl member)), ?_⟩
  exact ⟨rfl, chain_append.mpr
    ⟨rewired, hpost.congr (fun x member => agree x (Or.inr member))⟩⟩

/-- A new last cell, which the old last cell points at. -/
theorem Chain.push_last {p : Option α} {pre : List α} {w x : α} (h : Chain next p (pre ++ [w]))
    (forward : next' w = some x) (last : next' x = none) (agree : ∀ y ∈ pre, next' y = next y)
    : Chain next' p (pre ++ [w, x]) := by
  have cells : Chain next p (pre ++ w :: ([] ++ [])) := h
  have rewired : Path next' (next' w) [x] [].head? := ⟨forward, last⟩
  exact cells.splice rewired (fun y member => agree y (by simpa using member))

/-- A chain whose cells also point back: every cell but the first has its predecessor in
`prev`. Nothing is said of the first cell's `prev`.
-/
structure Doubly (next prev : α → Option α) (p : Option α) (xs : List α) : Prop where
  chain : Chain next p xs
  back : xs.IsChain (fun a b => prev b = some a)

variable {prev prev' : α → Option α}

/-- The empty list, from null. -/
theorem Doubly.nil : Doubly next prev none [] :=
  ⟨rfl, .nil⟩

/-- One cell without a successor is a list, whatever its `prev`. -/
theorem Doubly.singleton {x : α} (last : next x = none) : Doubly next prev (some x) [x] :=
  ⟨⟨rfl, last⟩, .singleton x⟩

/-- A doubly linked list depends on the links of its own cells only. -/
theorem Doubly.congr {p : Option α} {xs : List α} (h : Doubly next prev p xs)
    (agree : ∀ x ∈ xs, next' x = next x) (agreeBack : ∀ x ∈ xs, prev' x = prev x)
    : Doubly next' prev' p xs := by
  refine ⟨h.chain.congr agree, List.IsChain.imp_of_mem_imp (fun a b _ hb hab => ?_) h.back⟩
  rw [agreeBack b hb]
  exact hab

/-- Every cell of a list after another one has that one in `prev`. -/
theorem Doubly.prev_eq {p : Option α} {pre post : List α} {w x : α}
    (h : Doubly next prev p (pre ++ w :: x :: post))
    : prev x = some w := by
  have middle : [w, x].IsChain (fun a b => prev b = some a) :=
    h.back.infix ⟨pre, post, by simp⟩
  simpa using middle

/-- Only the first element of a list without duplicates is its head. -/
theorem head?_ne_of_mem_tail {xs : List α} (nodup : xs.Nodup) {q : α} (member : q ∈ xs.tail)
    : xs.head? ≠ some q := by
  cases xs with
  | nil => cases member
  | cons x xs =>
      rintro same
      obtain rfl := Option.some.inj same
      exact (List.nodup_cons.mp nodup).1 member

/-- Removing the first cell leaves the list from its successor. -/
theorem Doubly.unlink_head {p : Option α} {x : α} {post : List α}
    (h : Doubly next prev p (x :: post)) (agree : ∀ y ∈ post, next' y = next y)
    (agreeBack : ∀ y ∈ post.tail, prev' y = prev y)
    : Doubly next' prev' (next x) post := by
  refine ⟨h.chain.2.congr agree,
    List.IsChain.imp_of_mem_tail_imp (fun a b _ hb hab => ?_) h.back.tail⟩
  rw [agreeBack b hb]
  exact hab

/-- Removing a cell with a predecessor `w`: `w` takes over its successor and the successor
takes over `w`.
-/
theorem Doubly.unlink {p : Option α} {pre post : List α} {w x : α}
    (h : Doubly next prev p (pre ++ w :: x :: post)) (forward : next' w = next x)
    (agree : ∀ y, y ∈ pre ∨ y ∈ post → next' y = next y)
    (backward : ∀ y ∈ post.head?, prev' y = some w)
    (agreeBack : ∀ y, y ∈ pre ∨ y = w ∨ y ∈ post.tail → prev' y = prev y)
    : Doubly next' prev' p (pre ++ w :: post) := by
  constructor
  · have whole : Chain next p ((pre ++ [w]) ++ x :: post) := by simpa using h.chain
    have rewired : Path next' (next' w) [] post.head? := by
      rw [path_nil, forward, whole.next_eq]
    have cells : Chain next p (pre ++ w :: ([x] ++ post)) := h.chain
    exact cells.splice rewired agree
  · have left : (pre ++ [w]).IsChain (fun a b => prev' b = some a) := by
      have whole : List.IsChain (fun a b => prev b = some a) ((pre ++ [w]) ++ x :: post) := by
        simpa using h.back
      refine List.IsChain.imp_of_mem_imp (fun a b _ hb hab => ?_) whole.left_of_append
      have inside : b ∈ pre ∨ b = w := by simpa using hb
      rw [agreeBack b (by tauto)]
      exact hab
    have right : post.IsChain (fun a b => prev' b = some a) := by
      refine List.IsChain.imp_of_mem_tail_imp (fun a b _ hb hab => ?_)
        (List.IsChain.suffix h.back ⟨pre ++ [w, x], by simp⟩)
      rw [agreeBack b (by tauto)]
      exact hab
    have joined := left.append right (by
      intro a ha b hb
      obtain rfl : w = a := by simpa using ha
      exact backward b hb)
    simpa using joined

/-- A new last cell: the old last cell points at it and it points back. -/
theorem Doubly.push_last {p : Option α} {pre : List α} {w x : α}
    (h : Doubly next prev p (pre ++ [w])) (forward : next' w = some x)
    (last : next' x = none) (backward : prev' x = some w)
    (agree : ∀ y ∈ pre, next' y = next y) (agreeBack : ∀ y ∈ pre ++ [w], prev' y = prev y)
    : Doubly next' prev' p (pre ++ [w, x]) := by
  constructor
  · exact h.chain.push_last forward last agree
  · have old : (pre ++ [w]).IsChain (fun a b => prev' b = some a) := by
      refine List.IsChain.imp_of_mem_imp (fun a b _ hb hab => ?_) h.back
      rw [agreeBack b hb]
      exact hab
    have joined := old.append (List.IsChain.singleton x) (by
      intro a ha b hb
      obtain rfl : w = a := by simpa using ha
      obtain rfl : x = b := by simpa using hb
      exact backward)
    simpa using joined

/-- A new first cell: it points at the old list, whose first cell points back. -/
theorem Doubly.push_front {p : Option α} {xs : List α} {x : α} (h : Doubly next prev p xs)
    (forward : next' x = p) (backward : ∀ y ∈ xs.head?, prev' y = some x)
    (agree : ∀ y ∈ xs, next' y = next y) (agreeBack : ∀ y ∈ xs.tail, prev' y = prev y)
    : Doubly next' prev' (some x) (x :: xs) := by
  refine ⟨⟨rfl, by rw [forward]; exact h.chain.congr agree⟩, ?_⟩
  refine List.IsChain.cons ?_ backward
  refine List.IsChain.imp_of_mem_tail_imp (fun a b _ hb hab => ?_) h.back
  rw [agreeBack b hb]
  exact hab

-----------------------------------------------------------------------------------------
-- Walks
-----------------------------------------------------------------------------------------

/-- Distinct addresses below a bound are no more than the bound. -/
theorem length_le_of_nodup {xs : List Nat} {n : Nat} (nodup : xs.Nodup)
    (below : ∀ x ∈ xs, x < n)
    : xs.length ≤ n := by
  have part : xs.toFinset ⊆ Finset.range n := fun x member =>
    Finset.mem_range.mpr (below x (List.mem_toFinset.mp member))
  have count := Finset.card_le_card part
  rwa [List.toFinset_card_of_nodup nodup, Finset.card_range] at count

/-- The walk from `p` to the first cell that meets a condition; the inner `none` is the null
pointer behind the last cell.
-/
def find (next : α → Option α) (stop : α → Bool) : (fuel : Nat) → Option α → Option (Option α)
  | _, none => some none
  | 0, some _ => none
  | fuel + 1, some x => if stop x then some (some x) else find next stop fuel (next x)

def last (next : α → Option α) : (fuel : Nat) → α → Option α
  | 0, _ => none
  | fuel + 1, x =>
      match next x with
      | none => some x
      | some y => last next fuel y

variable {stop : α → Bool}

/-- The walk passes over the cells that do not meet the condition and stops at the next one,
by induction on the cells passed.
-/
theorem find_eq {front back : List α} {p : Option α} {fuel : Nat}
    (h : Chain next p (front ++ back)) (passed : ∀ x ∈ front, stop x = false)
    (met : ∀ x ∈ back.head?, stop x = true) (enough : front.length < fuel)
    : find next stop fuel p = some back.head? := by
  induction front generalizing fuel p with
  | nil =>
      obtain ⟨fuel, rfl⟩ := Nat.exists_eq_succ_of_ne_zero (Nat.ne_of_gt enough)
      obtain rfl : p = back.head? := Chain.head h
      cases back with
      | nil => rfl
      | cons x back => simp [find, met x rfl]
  | cons x front ih =>
      obtain ⟨rfl, rest⟩ := h
      obtain ⟨fuel, rfl⟩ := Nat.exists_eq_succ_of_ne_zero (Nat.ne_of_gt (Nat.zero_lt_of_lt enough))
      have skip : stop x = false := passed x (by simp)
      rw [find, skip, if_neg Bool.false_ne_true]
      exact ih rest (fun y member => passed y (by simp [member])) (Nat.lt_of_succ_lt_succ enough)

/-- What a walk finds is a cell of the chain that meets the condition, or null when no cell
does, by induction on the cells.
-/
theorem find_eq_some {p r : Option α} {xs : List α} {fuel : Nat} (h : Chain next p xs)
    (found : find next stop fuel p = some r)
    : (∀ x ∈ r, x ∈ xs ∧ stop x = true) ∧ (r = none → ∀ x ∈ xs, stop x = false) := by
  induction xs generalizing p fuel with
  | nil =>
      obtain rfl : p = none := h
      rw [find] at found
      obtain rfl := Option.some.inj found
      simp
  | cons x xs ih =>
      obtain ⟨rfl, rest⟩ := h
      cases fuel with
      | zero => simp [find] at found
      | succ fuel =>
          rw [find] at found
          cases here : stop x with
          | true =>
              rw [here, if_pos rfl] at found
              obtain rfl := Option.some.inj found
              simp [here]
          | false =>
              rw [here, if_neg Bool.false_ne_true] at found
              obtain ⟨some, none⟩ := ih rest found
              refine ⟨fun y member => ?_, fun null y member => ?_⟩
              · exact ⟨List.mem_cons_of_mem _ (some y member).1, (some y member).2⟩
              · rcases List.mem_cons.mp member with rfl | later
                · exact here
                · exact none null y later

/-- A walk over a chain returns, by induction on the cells. -/
theorem find_returns {p : Option α} {xs : List α} {fuel : Nat} (h : Chain next p xs)
    (enough : xs.length ≤ fuel)
    : ∃ r, find next stop fuel p = some r := by
  induction xs generalizing p fuel with
  | nil =>
      obtain rfl : p = none := h
      exact ⟨none, by rw [find]⟩
  | cons x xs ih =>
      obtain ⟨rfl, rest⟩ := h
      obtain ⟨fuel, rfl⟩ := Nat.exists_eq_add_of_le' (Nat.le_trans (Nat.succ_pos _) enough)
      rw [find]
      split
      · exact ⟨some x, rfl⟩
      · exact ih rest (Nat.le_of_succ_le_succ enough)

/-- The walk to the last cell ends there, by induction on the cells before it. -/
theorem last_eq {front : List α} {x y : α} {fuel : Nat}
    (h : Chain next (some x) (front ++ [y])) (enough : front.length < fuel)
    : last next fuel x = some y := by
  induction front generalizing x fuel with
  | nil =>
      obtain ⟨start, stop⟩ := h
      obtain rfl : x = y := Option.some.inj start
      obtain ⟨fuel, rfl⟩ := Nat.exists_eq_succ_of_ne_zero (Nat.ne_of_gt enough)
      rw [last, show next x = none from stop]
  | cons z front ih =>
      obtain ⟨start, rest⟩ := h
      obtain rfl : x = z := Option.some.inj start
      obtain ⟨fuel, rfl⟩ := Nat.exists_eq_succ_of_ne_zero (Nat.ne_of_gt (Nat.zero_lt_of_lt enough))
      cases following : next x with
      | none =>
          have := Chain.head rest
          simp [following] at this
      | some q =>
          rw [following] at rest
          rw [last, following]
          exact ih rest (Nat.lt_of_succ_lt_succ enough)

/-- A longer walk ends at the same cell, by induction on the fuel. -/
theorem last_mono {x y : α} {fuel more : Nat} (enough : fuel ≤ more)
    (found : last next fuel x = some y)
    : last next more x = some y := by
  induction fuel generalizing more x with
  | zero => cases found
  | succ fuel ih =>
      obtain ⟨more, rfl⟩ := Nat.exists_eq_add_of_le' (Nat.le_trans (Nat.le_add_left 1 _) enough)
      rw [last] at found ⊢
      cases following : next x with
      | none =>
          rw [following] at found
          exact found
      | some q =>
          rw [following] at found
          exact ih (Nat.le_of_succ_le_succ enough) found

/-- The last cell a walk comes to is the last one of the chain, by induction on the cells. -/
theorem last_eq_some {xs : List α} {x y : α} {fuel : Nat} (h : Chain next (some x) xs)
    (found : last next fuel x = some y)
    : ∃ front, xs = front ++ [y] := by
  induction xs generalizing x fuel with
  | nil => cases h
  | cons z xs ih =>
      obtain ⟨start, rest⟩ := h
      obtain rfl : x = z := Option.some.inj start
      cases fuel with
      | zero => simp [last] at found
      | succ fuel =>
          rw [last] at found
          cases following : next x with
          | none =>
              rw [following] at found
              obtain rfl : x = y := Option.some.inj found
              rw [following] at rest
              have none : xs = [] := by simpa using (Chain.head rest).symm
              exact ⟨[], by simp [none]⟩
          | some q =>
              rw [following] at found rest
              obtain ⟨front, rfl⟩ := ih rest found
              exact ⟨x :: front, rfl⟩

/-- A walk from one of some cells that the links do not leave ends at one of them, by induction on
the fuel.
-/
theorem find_mem {xs : List α} (closed : ∀ x ∈ xs, ∀ y ∈ next x, y ∈ xs) {p : Option α} {r : α}
    {fuel : Nat} (start : ∀ x ∈ p, x ∈ xs) (found : find next stop fuel p = some (some r))
    : r ∈ xs := by
  induction fuel generalizing p with
  | zero => cases p <;> cases found
  | succ fuel ih =>
      cases p with
      | none => cases found
      | some x =>
          have here : x ∈ xs := start x rfl
          rw [find] at found
          split at found
          · obtain rfl := Option.some.inj (Option.some.inj found)
            exact here
          · exact ih (closed x here) found

/-- So does the walk to the last cell, by induction on the fuel. -/
theorem last_mem {xs : List α} (closed : ∀ x ∈ xs, ∀ y ∈ next x, y ∈ xs) {x y : α} {fuel : Nat}
    (start : x ∈ xs) (found : last next fuel x = some y)
    : y ∈ xs ∧ next y = none := by
  induction fuel generalizing x with
  | zero => cases found
  | succ fuel ih =>
      rw [last] at found
      cases following : next x with
      | none =>
          rw [following] at found
          obtain rfl := Option.some.inj found
          exact ⟨start, following⟩
      | some q =>
          rw [following] at found
          exact ih (closed x start q following) found

end Linked
