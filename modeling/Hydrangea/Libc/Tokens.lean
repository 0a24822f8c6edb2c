import Hydrangea.Lib.Runs
import Hydrangea.Libc.String

/-! Cutting a string up with the `strtok` of `libk/string.c` and of `libc/string/string.c`: what a
call with the string and the calls with null after it return, and what they leave of the string.
-/

namespace Hydrangea

open CString Runs

/-- A `strtok`, by the buffer, the static `i` and the two arguments. -/
abbrev Strtok :=
  List UInt8 → Option Nat → Option Nat → List UInt8
    → Option (Option Nat × Option Nat × List UInt8)

/-- Calls one after another, all but the first with null: the tokens, and the static `i` and the
buffer after them.
-/
def Strtok.calls (tok : Strtok) (delim : List UInt8)
    : (n : Nat) → (i str : Option Nat) → (buffer : List UInt8)
      → Option (List (Option Nat) × Option Nat × List UInt8)
  | 0, i, _, buffer => some ([], i, buffer)
  | n + 1, i, str, buffer => do
      let (token, i, buffer) ← tok buffer i str delim
      let (tokens, i, buffer) ← Strtok.calls tok delim n i none buffer
      return (token :: tokens, i, buffer)

def endAt (buffer : List UInt8) (ends : List Nat) : List UInt8 :=
  ends.foldl (fun buffer j => buffer.set j 0) buffer

/-- What has been cut up: the runs end with a zero, and the bytes that have changed are delimiters
right behind them.
-/
structure CutUp (ds s buffer : List UInt8) (runs : List (Nat × Nat)) (buffer' : List UInt8)
    : Prop where
  length : buffer'.length = buffer.length
  ended : ∀ r ∈ runs, Holds (buffer'.drop r.1) ((s.drop r.1).take r.2)
  changed : ∀ j, buffer'[j]? ≠ buffer[j]? → ∃ r ∈ runs, j = r.1 + r.2 ∧ ∃ c ∈ s[j]?, c ∈ ds

variable {buffer delim ds s t : List UInt8} {i str : Option Nat} {p : Nat}

-----------------------------------------------------------------------------------------
-- Zeros stored in a buffer
-----------------------------------------------------------------------------------------

/-- The bytes of a buffer with zeros stored in it, by induction on their places. -/
theorem getElem?_endAt (buffer : List UInt8) (ends : List Nat) (j : Nat)
    : (endAt buffer ends)[j]? = if j ∈ ends then buffer[j]?.map (fun _ => 0) else buffer[j]? := by
  induction ends generalizing buffer with
  | nil => rfl
  | cons e ends ih =>
      rw [show endAt buffer (e :: ends) = endAt (buffer.set e 0) ends from rfl, ih,
        List.getElem?_set']
      grind

/-- Storing zeros keeps the length, by induction on their places. -/
theorem length_endAt (buffer : List UInt8) (ends : List Nat)
    : (endAt buffer ends).length = buffer.length := by
  induction ends generalizing buffer with
  | nil => rfl
  | cons e ends ih => exact (ih _).trans List.length_set

/-- A buffer holds a string where it has its bytes and a zero behind them. -/
theorem holds_of_getElem? {w : List UInt8} (nonzero : 0 ∉ w)
    (bytes : ∀ j, j < w.length → buffer[p + j]? = w[j]?) (stop : buffer[p + w.length]? = some 0)
    : Holds (buffer.drop p) w := by
  refine ⟨nonzero, buffer.drop (p + w.length + 1), List.ext_getElem? (fun j => ?_)⟩
  rw [List.getElem?_drop]
  rcases Nat.lt_trichotomy j w.length with inside | rfl | behind
  · rw [bytes j inside, List.getElem?_append_left inside]
  · rw [stop, List.getElem?_append_right (le_refl _), Nat.sub_self]
    rfl
  · obtain ⟨k, rfl⟩ := Nat.exists_eq_add_of_lt behind
    rw [List.getElem?_append_right (by omega), List.getElem?_cons, if_neg (by omega),
      List.getElem?_drop]
    congr 1
    omega

/-- The bytes of the string that a buffer holds. -/
theorem getElem?_of_holds (held : Holds buffer s) {j : Nat} (inside : j < s.length)
    : buffer[j]? = s[j]? := by
  obtain ⟨-, rest, rfl⟩ := held
  exact List.getElem?_append_left inside

/-- The zero behind the string that a buffer holds. -/
theorem getElem?_length_of_holds (held : Holds buffer s) : buffer[s.length]? = some 0 := by
  obtain ⟨-, rest, rfl⟩ := held
  rw [List.getElem?_append_right (le_refl _), Nat.sub_self]
  rfl

/-- Zeros stored behind maximal runs cut these out. -/
theorem cutUp_endAt {runs : List (Nat × Nat)} (held : Holds buffer s)
    (maximal : ∀ r ∈ runs, MaximalRun (· ∈ ds) s r.1 r.2)
    : CutUp ds s buffer runs (endAt buffer (runs.map (fun r => r.1 + r.2))) := by
  refine ⟨length_endAt _ _, fun r member => ?_, fun j differs => ?_⟩
  · have run := maximal r member
    have inside := run.inside
    have long : ((s.drop r.1).take r.2).length = r.2 := by
      rw [List.length_take, List.length_drop]
      omega
    refine holds_of_getElem? (fun zero => ?_) (fun j below => ?_) ?_
    · exact held.1 (List.mem_of_mem_drop (List.mem_of_mem_take zero))
    · rw [long] at below
      rw [getElem?_endAt, if_neg, getElem?_of_holds held (by omega), List.getElem?_take_of_lt below,
        List.getElem?_drop]
      intro ended
      obtain ⟨r', member', same⟩ := List.mem_map.mp ended
      -- No run ends within another one.
      have run' := maximal r' member'
      rcases Nat.lt_trichotomy r.1 r'.1 with later | start | earlier
      · have apart := run.lt_of_lt run' later
        omega
      · have longer := run'.length_le (start ▸ run)
        omega
      · have apart := run'.lt_of_lt run earlier
        omega
    · rw [long, getElem?_endAt, if_pos (List.mem_map.mpr ⟨r, member, rfl⟩),
        List.getElem?_eq_getElem (Nat.lt_of_le_of_lt inside held.length_lt)]
      rfl
  · rw [getElem?_endAt] at differs
    by_cases ended : j ∈ runs.map (fun r => r.1 + r.2)
    · obtain ⟨r, member, rfl⟩ := List.mem_map.mp ended
      rcases (maximal r member).behind with last | delimiter
      · rw [if_pos ended, last, getElem?_length_of_holds held] at differs
        exact absurd rfl differs
      · exact ⟨r, member, rfl, delimiter⟩
    · rw [if_neg ended] at differs
      exact absurd rfl differs

-----------------------------------------------------------------------------------------
-- The calls
-----------------------------------------------------------------------------------------

/-- What `strtok` has yet to cut up begins at `p`. -/
def LeftAt (buffer : List UInt8) (i : Option Nat) (p : Nat) (t : List UInt8) : Prop :=
  (i = none ∧ t = []) ∨ (i = some p ∧ Holds (buffer.drop p) t)

/-- A call of `strtok` returns the next run, and ends it. -/
theorem strtok_run (h : Holds delim ds) (left : LeftAt buffer (str.or i) p t)
    : (runsFrom (· ∈ ds) p t = [] ∧ strtok buffer i str delim = some (none, none, buffer))
      ∨ ∃ r t' i', runsFrom (· ∈ ds) p t = r :: runsFrom (· ∈ ds) (r.1 + r.2 + 1) t'
        ∧ strtok buffer i str delim = some (some r.1, i', buffer.set (r.1 + r.2) 0)
        ∧ LeftAt (buffer.set (r.1 + r.2) 0) i' (r.1 + r.2 + 1) t' := by
  rcases left with ⟨null, rfl⟩ | ⟨start, nonzero, rest, here⟩
  · refine .inl ⟨runsFrom_nil _ _, ?_⟩
    rw [strtok, null]
  · have chars {part : List UInt8} (inside : ∀ c ∈ part, c ∈ t) : ∀ c ∈ part, c ≠ 0 :=
      fun c member zero => nonzero (zero ▸ inside c member)
    rcases runsFrom_cases (· ∈ ds) p t with
      ⟨none, all⟩ | ⟨lead, word, tail, rfl, leads, nonempty, free, ends, runs⟩
    · exact .inl ⟨none, strtok_end h start here
        (fun c member => ⟨chars (fun _ => id) c member, all c member⟩)⟩
    · have skip : ∀ c ∈ lead, c ≠ 0 ∧ c ∈ ds :=
        fun c member => ⟨chars (by simp +contextual) c member, leads c member⟩
      have pass : ∀ c ∈ word, c ≠ 0 ∧ c ∉ ds :=
        fun c member => ⟨chars (by simp +contextual) c member, free c member⟩
      refine .inr ⟨(p + lead.length, word.length), tail.drop 1, ?_⟩
      rcases ends with rfl | ⟨c, behind, rfl, isDelim⟩
      · rw [List.append_nil, List.append_assoc] at here
        have called := strtok_word h start here skip pass nonempty (.inl rfl)
        rw [if_neg (by simp)] at called
        have stop := List.head?_drop (l := buffer) (i := p + lead.length + word.length)
        rw [drop_of_drop (drop_of_drop here)] at stop
        have same : buffer.set (p + lead.length + word.length) 0 = buffer := by
          refine List.ext_getElem? (fun j => ?_)
          rw [List.getElem?_set']
          split
          · next last => rw [← last, ← stop]; rfl
          · rfl
        exact ⟨none, runs, by rw [same]; exact called, .inl ⟨rfl, rfl⟩⟩
      · rw [List.append_assoc, List.append_assoc, List.cons_append] at here
        have called := strtok_word h start here skip pass nonempty (.inr isDelim)
        have nonzero' : c ≠ 0 := by
          rintro rfl
          exact h.1 isDelim
        rw [if_pos nonzero'] at called
        refine ⟨_, runs, called, .inr ⟨rfl, fun zero => nonzero (by simp_all), rest, ?_⟩⟩
        exact (drop_set_behind (drop_of_drop here)).2

/-- The calls return the runs one after another, and null behind the last one, by induction on the
calls.
-/
theorem calls_runs (h : Holds delim ds) (n : Nat) (left : LeftAt buffer (str.or i) p t)
    : ∃ i', Strtok.calls strtok delim n i str buffer
        = some ((List.range n).map (fun k => (runsFrom (· ∈ ds) p t)[k]?.map Prod.fst), i',
          endAt buffer (((runsFrom (· ∈ ds) p t).take n).map (fun r => r.1 + r.2))) := by
  induction n generalizing buffer i str p t with
  | zero => exact ⟨i, rfl⟩
  | succ n ih =>
      rw [List.range_succ_eq_map, List.map_cons, List.map_map]
      rcases strtok_run h left with ⟨none, called⟩ | ⟨r, t', i', runs, called, left'⟩
      · have left' : LeftAt buffer (Option.or .none .none) p [] := .inl ⟨rfl, rfl⟩
        obtain ⟨i', later⟩ := ih left'
        refine ⟨i', ?_⟩
        rw [runsFrom_nil, List.take_nil] at later
        rw [none, List.take_nil, Strtok.calls, called, Option.bind_eq_bind, Option.bind_some]
        dsimp only
        rw [later]
        rfl
      · have left'' : LeftAt (buffer.set (r.1 + r.2) 0) (Option.or .none i') (r.1 + r.2 + 1) t' :=
          left'
        obtain ⟨i'', later⟩ := ih left''
        refine ⟨i'', ?_⟩
        rw [runs, Strtok.calls, called, Option.bind_eq_bind, Option.bind_some]
        dsimp only
        rw [later]
        rfl

/-- Both `strtok` return the maximal runs of a string in their order, each ended in place, and null
for ever behind the last one, and change the delimiters right behind these runs only. A call skips
delimiters from the cursor on, ends the run that follows in place, and leaves the cursor behind it;
the rest follows by induction on the calls.
-/
theorem strtok_cutUp {tok : Strtok} (either : tok = strtok ∨ tok = Libc.strtok)
    (held : Holds buffer s) (heldDelim : Holds delim ds) (i : Option Nat)
    : ∃ runs : List (Nat × Nat),
        runs.Pairwise (fun r r' => r.1 + r.2 < r'.1)
        ∧ (∀ p n, (p, n) ∈ runs ↔ MaximalRun (· ∈ ds) s p n)
        ∧ ∀ n, ∃ i' buffer', tok.calls delim n i (some 0) buffer
              = some ((List.range n).map (fun k => runs[k]?.map Prod.fst), i', buffer')
            ∧ CutUp ds s buffer (runs.take n) buffer' := by
  have one : tok = strtok := either.elim id (fun same => same.trans Libc.strtok_eq)
  subst one
  refine ⟨runsFrom (· ∈ ds) 0 s, (runsFrom_ordered _ 0 s).1, fun p n => mem_runsFrom_zero, ?_⟩
  intro n
  have left : LeftAt buffer ((some 0).or i) 0 s := .inr ⟨rfl, held⟩
  obtain ⟨i', called⟩ := calls_runs heldDelim n left
  refine ⟨i', _, called, cutUp_endAt held (fun r member => ?_)⟩
  exact mem_runsFrom_zero.mp (List.mem_of_mem_take member)

/-- The user's `strtok` on `,a,,b`. -/
theorem strtok_cutUp_two
    : ∃ runs : List (Nat × Nat),
        (∀ p n, (p, n) ∈ runs ↔ MaximalRun (· ∈ ([44] : List UInt8)) [44, 97, 44, 44, 98] p n)
        ∧ ∀ n, ∃ i' buffer',
            Strtok.calls Libc.strtok [44, 0] n none (some 0) [44, 97, 44, 44, 98, 0]
              = some ((List.range n).map (fun k => runs[k]?.map Prod.fst), i', buffer')
            ∧ CutUp [44] [44, 97, 44, 44, 98] [44, 97, 44, 44, 98, 0] (runs.take n) buffer' := by
  obtain ⟨runs, -, maximal, calls⟩ := strtok_cutUp (.inr rfl)
    (show Holds [44, 97, 44, 44, 98, 0] [44, 97, 44, 44, 98] by decide)
    (show Holds [44, 0] [44] by decide) none
  exact ⟨runs, maximal, calls⟩

end Hydrangea
