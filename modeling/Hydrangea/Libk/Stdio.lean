import Hydrangea.Libk.Itoa
import Mathlib.Data.List.Forall2

/-! Formatted printing: `v_printk` of `libk/stdio.c`. `none` is an access behind the end of the
format, or an argument that is not there. Doubles are opaque, with the operations that the code
uses.
-/

namespace Hydrangea

open CString

/-- The operations on doubles in `v_printk`. -/
structure Doubles (Double : Type) where
  isNegative : Double → Bool
  negated : Double → Double
  toInt : Double → Int32
  minus : Double → Int32 → Double
  timesTen : Double → Double

inductive Arg (Double : Type) where
  | int (n : Int32)
  | str (s : List UInt8)
  | double (f : Double)

def sixteen : Base :=
  ⟨16, by decide⟩

variable {Double : Type}

/-- The text of a number, which `itoa` writes to an array of 20 characters. -/
def printInt (n : Int32) (base : Base) : Option (List UInt8) :=
  (itoa n.toInt (List.replicate 20 0) base).map (fun str => str.takeWhile (· ≠ 0))

/-- The `switch` of `v_printk` for the characters `percent` and `c`: what it prints, and the
arguments left. The last case is the `default`.
-/
def printArg (printDouble : Double → Option (List UInt8)) (percent c : UInt8)
    (ap : List (Arg Double))
    : Option (List UInt8 × List (Arg Double)) :=
  if c = 99 then
    match ap with
    | .int n :: ap => some ([n.toUInt32.toUInt8], ap)
    | _ => none
  else if c = 115 then
    match ap with
    | .str s :: ap => some (s, ap)
    | _ => none
  else if c = 100 then
    match ap with
    | .int n :: ap => (printInt n ten).map (fun text => (text, ap))
    | _ => none
  else if c = 102 then
    match ap with
    | .double f :: ap => (printDouble f).map (fun text => (text, ap))
    | _ => none
  else if c = 120 then
    match ap with
    | .int n :: ap => (printInt n sixteen).map (fun text => (text, ap))
    | _ => none
  else
    some ([percent, c], ap)

/-- The loop of `v_printk` from a position of the format on: the text, the arguments left and the
position it stops at.
-/
def printFrom (printDouble : Double → Option (List UInt8)) (buffer : List UInt8) (format : Nat)
    (ap : List (Arg Double))
    : Option (List UInt8 × List (Arg Double) × Nat) :=
  if inside : format < buffer.length then
    if buffer[format] = 0 then
      some ([], ap, format)
    else if buffer[format] ≠ 37 then do
      let (text, ap, stop) ← printFrom printDouble buffer (format + 1) ap
      return (buffer[format] :: text, ap, stop)
    else do
      let c ← buffer[format + 1]?
      let (first, ap) ← printArg printDouble buffer[format] c ap
      let (text, ap, stop) ← printFrom printDouble buffer (format + 2) ap
      return (first ++ text, ap, stop)
  else
    none
termination_by buffer.length - format

/-- `printk` with a format that prints no doubles. -/
def printkInt (format : List UInt8) (ap : List (Arg Double)) : Option (List UInt8) :=
  (printFrom (fun _ => none) format 0 ap).map Prod.fst

/-- The digits behind the point of a double, of which `n` are left. -/
def printDigits (doubles : Doubles Double)
    : (n : Nat) → (f : Double) → (whole : Int32) → Option (List UInt8)
  | 0, _, _ => some []
  | n + 1, f, whole => do
      let f := doubles.timesTen (doubles.minus f whole)
      let whole := doubles.toInt f
      let digit ← printkInt [37, 100, 0] [(Arg.int whole : Arg Double)]
      let rest ← printDigits doubles n f whole
      return digit ++ rest

/-- The case `'f'` of `v_printk`. -/
def printDouble (doubles : Doubles Double) (f : Double) : Option (List UInt8) := do
  let sign := if doubles.isNegative f then [45] else []
  let f := if doubles.isNegative f then doubles.negated f else f
  let whole := doubles.toInt f
  let front ← printkInt [37, 100, 46, 0] [(Arg.int whole : Arg Double)]
  let digits ← printDigits doubles 4 f whole
  return sign ++ front ++ digits

/-- `v_printk`: the text, the arguments left and the position of the format that it stops at. -/
def vPrintk (doubles : Doubles Double) (format : List UInt8) (ap : List (Arg Double))
    : Option (List UInt8 × List (Arg Double) × Nat) :=
  printFrom (printDouble doubles) format 0 ap

-----------------------------------------------------------------------------------------
-- The conversions of a format
-----------------------------------------------------------------------------------------

def conversions : List UInt8 → List UInt8
  | c :: d :: s =>
      if c = 37 then
        if d ∈ [99, 115, 100, 102, 120] then d :: conversions s else conversions s
      else
        conversions (d :: s)
  | _ => []

/-- The argument that a conversion takes. -/
inductive Takes : UInt8 → Arg Double → Prop where
  | char (n : Int32) : Takes 99 (.int n)
  | str (s : List UInt8) : Takes 115 (.str s)
  | decimal (n : Int32) : Takes 100 (.int n)
  | double (f : Double) : Takes 102 (.double f)
  | hexadecimal (n : Int32) : Takes 120 (.int n)

/-- The number of `%` at the end of a format. -/
def trailing (s : List UInt8) : Nat :=
  (s.reverse.takeWhile (· = 37)).length

def Closed : List UInt8 → Prop
  | [] => True
  | [c] => c ≠ 37
  | c :: d :: s => if c = 37 then Closed s else Closed (d :: s)

/-- The `%` at the end, with one more character in front. -/
theorem trailing_cons (c : UInt8) (s : List UInt8)
    : trailing (c :: s)
      = if trailing s = s.length then s.length + (if c = 37 then 1 else 0) else trailing s := by
  rw [trailing, List.reverse_cons, List.takeWhile_append, List.length_reverse,
    apply_ite List.length]
  refine if_congr Iff.rfl ?_ rfl
  by_cases percent : c = 37 <;> simp [percent]

/-- There are no more `%` at the end than there are characters. -/
theorem trailing_le (s : List UInt8) : trailing s ≤ s.length :=
  (List.takeWhile_prefix _).length_le.trans s.length_reverse.le

/-- A format lacks no character if the number of `%` at its end is even, by induction on its
conversions.
-/
theorem closed_iff (s : List UInt8) : Closed s ↔ Even (trailing s) := by
  induction s using Closed.induct with
  | case1 => exact iff_of_true trivial (by decide)
  | case2 c =>
      rw [Closed, trailing_cons]
      by_cases percent : c = 37 <;> simp [percent, trailing]
  | case3 d s ih =>
      have short := trailing_le s
      rw [Closed, if_pos rfl, ih, trailing_cons, trailing_cons, List.length_cons]
      by_cases all : trailing s = s.length
      · by_cases percent : d = 37
        · simp [all, percent, Nat.even_add_one]
        · simp [all, percent]
      · simp only [if_neg all, if_neg (show trailing s ≠ s.length + 1 by omega)]
  | case4 c d s other ih =>
      rw [Closed, if_neg other, ih, trailing_cons c, if_neg other]
      split
      · next all => rw [all, Nat.add_zero]
      · rfl

-----------------------------------------------------------------------------------------
-- The loop
-----------------------------------------------------------------------------------------

/-- The array of 20 characters has room for a number in base 10 or 16. -/
theorem printInt_isSome (n : Int32) {base : Base} (big : 10 ≤ base.toNat)
    : ∃ text, printInt n base = some text := by
  have low := n.le_toInt
  have high := n.toInt_lt
  have small : n.toInt.natAbs < 10 ^ 10 := by omega
  have long := length_digitsFrom (k := 10) (by decide)
    (Nat.lt_of_lt_of_le small (Nat.pow_le_pow_left big 10))
  have fits : (digitsFrom base n.toInt).length < (List.replicate 20 (0 : UInt8)).length := by
    rw [List.length_replicate]
    omega
  exact ⟨_, by rw [printInt, itoa_eq fits, Option.map_some]⟩

theorem printArg_takes {printDouble : Double → Option (List UInt8)} {c : UInt8} {arg : Arg Double}
    (takes : Takes c arg) (prints : ∀ f, arg = .double f → ∃ text, printDouble f = some text)
    (percent : UInt8) (ap : List (Arg Double))
    : ∃ text, printArg printDouble percent c (arg :: ap) = some (text, ap) := by
  cases takes with
  | char n => exact ⟨_, rfl⟩
  | str s => exact ⟨_, rfl⟩
  | decimal n =>
      obtain ⟨text, printed⟩ := printInt_isSome n (show 10 ≤ ten.toNat by decide)
      exact ⟨text, by simp [printArg, printed]⟩
  | double f =>
      obtain ⟨text, printed⟩ := prints f rfl
      exact ⟨text, by simp [printArg, printed]⟩
  | hexadecimal n =>
      obtain ⟨text, printed⟩ := printInt_isSome n (show 10 ≤ sixteen.toNat by decide)
      exact ⟨text, by simp [printArg, printed]⟩

theorem printArg_default (printDouble : Double → Option (List UInt8)) {c : UInt8}
    (other : c ∉ [99, 115, 100, 102, 120]) (percent : UInt8) (ap : List (Arg Double))
    : printArg printDouble percent c ap = some ([percent, c], ap) := by
  simp only [List.mem_cons, List.not_mem_nil, or_false, not_or] at other
  obtain ⟨notC, notS, notD, notF, notX⟩ := other
  simp only [printArg, if_neg notC, if_neg notS, if_neg notD, if_neg notF, if_neg notX]

section Loop

variable {printDouble : Double → Option (List UInt8)} {buffer rest : List UInt8} {format : Nat}

/-- The character at a position of the format. -/
theorem getElem_of_drop {c : UInt8} (here : buffer.drop format = c :: rest)
    : ∃ inside : format < buffer.length, buffer[format] = c := by
  have inside : format < buffer.length := by
    by_contra outside
    rw [List.drop_of_length_le (Nat.le_of_not_lt outside)] at here
    cases here
  refine ⟨inside, ?_⟩
  rw [List.drop_eq_getElem_cons inside] at here
  exact (List.cons.inj here).1

theorem printFrom_zero (here : buffer.drop format = 0 :: rest) (ap : List (Arg Double))
    : printFrom printDouble buffer format ap = some ([], ap, format) := by
  obtain ⟨inside, first⟩ := getElem_of_drop here
  rw [printFrom, dif_pos inside, if_pos first]

theorem printFrom_char {c : UInt8} (here : buffer.drop format = c :: rest) (nonzero : c ≠ 0)
    (noPercent : c ≠ 37) (ap : List (Arg Double))
    : printFrom printDouble buffer format ap
      = (printFrom printDouble buffer (format + 1) ap).map (fun r => (c :: r.1, r.2)) := by
  obtain ⟨inside, rfl⟩ := getElem_of_drop here
  rw [printFrom, dif_pos inside, if_neg nonzero, if_pos noPercent, Option.map_eq_bind]
  rfl

/-- The loop goes through a conversion, and on behind the character after it. -/
theorem printFrom_percent {c : UInt8} (here : buffer.drop format = 37 :: c :: rest)
    (ap : List (Arg Double))
    : printFrom printDouble buffer format ap
      = (printArg printDouble 37 c ap).bind (fun r =>
          (printFrom printDouble buffer (format + 2) r.2).map (fun r' => (r.1 ++ r'.1, r'.2))) := by
  obtain ⟨inside, first⟩ := getElem_of_drop here
  have behind : buffer[format + 1]? = some c := by
    rw [← List.head?_drop, ← List.tail_drop, here]
    rfl
  rw [printFrom, dif_pos inside, first, if_neg (by decide), if_neg (by decide), behind]
  simp only [Option.map_eq_bind]
  rfl

/-- The loop reads behind the end of the format. -/
theorem printFrom_outside (outside : buffer.length ≤ format) (ap : List (Arg Double))
    : printFrom printDouble buffer format ap = none := by
  rw [printFrom, dif_neg (Nat.not_lt.mpr outside)]

/-- A printed format leaves some arguments and stops at a position if a condition holds, and is read
behind its end otherwise.
-/
def StopsIf (closed : Prop) (extra : List (Arg Double)) (stop : Nat)
    (printed : Option (List UInt8 × List (Arg Double) × Nat))
    : Prop :=
  (closed → ∃ text, printed = some (text, extra, stop)) ∧ (¬ closed → printed = none)

/-- Text in front changes nothing about this. -/
theorem StopsIf.map {closed : Prop} {extra : List (Arg Double)} {stop : Nat}
    {printed : Option (List UInt8 × List (Arg Double) × Nat)} (h : StopsIf closed extra stop printed)
    (front : List UInt8)
    : StopsIf closed extra stop (printed.map (fun r => (front ++ r.1, r.2))) := by
  constructor
  · intro isClosed
    obtain ⟨text, stopped⟩ := h.1 isClosed
    exact ⟨front ++ text, by rw [stopped, Option.map_some]⟩
  · intro isOpen
    rw [h.2 isOpen, Option.map_none]

/-- The loop takes the arguments of its conversions, and stops at the zero if the format is closed,
but reads behind it otherwise. By induction on the conversions.
-/
theorem printFrom_eq {t : List UInt8} {used : List (Arg Double)} (extra : List (Arg Double))
    (here : buffer.drop format = t ++ [0]) (nonzero : 0 ∉ t)
    (takes : List.Forall₂ Takes (conversions t) used)
    (prints : ∀ f, .double f ∈ used → ∃ text, printDouble f = some text)
    : StopsIf (Closed t) extra (format + t.length)
      (printFrom printDouble buffer format (used ++ extra)) := by
  induction t using Closed.induct generalizing format used with
  | case1 =>
      cases takes
      exact ⟨fun _ => ⟨[], printFrom_zero here extra⟩, fun isOpen => absurd trivial isOpen⟩
  | case2 c =>
      cases takes
      rw [Closed, List.nil_append]
      constructor
      · intro noPercent
        have behind : buffer.drop (format + 1) = [0] := by
          rw [← List.tail_drop, here]
          rfl
        refine ⟨[c], ?_⟩
        rw [printFrom_char here (fun zero => nonzero (by simp [zero])) noPercent,
          printFrom_zero behind]
        rfl
      · intro percent
        obtain rfl := not_not.mp percent
        have size := congrArg List.length here
        rw [List.length_drop] at size
        rw [printFrom_percent here, printArg_default _ (by decide), Option.bind_some,
          printFrom_outside]
        · rfl
        · simp only [List.length_append, List.length_cons, List.length_nil] at size
          omega
  | case3 d s ih =>
      have behind : buffer.drop (format + 2) = s ++ [0] := by
        rw [← List.drop_drop, here]
        rfl
      have nonzero' : 0 ∉ s := fun zero => nonzero (by simp [zero])
      have stop : format + (37 :: d :: s).length = format + 2 + s.length := by
        rw [List.length_cons, List.length_cons]
        omega
      rw [conversions, if_pos rfl] at takes
      rw [Closed, if_pos rfl, printFrom_percent here, stop]
      -- The conversion takes the first argument, or none if its character is unknown.
      by_cases known : d ∈ [99, 115, 100, 102, 120]
      · rw [if_pos known] at takes
        obtain ⟨arg, used, first, others, rfl⟩ := List.forall₂_cons_left_iff.mp takes
        obtain ⟨text, printed⟩ := printArg_takes first
          (fun f same => prints f (same ▸ List.mem_cons_self ..)) 37 (used ++ extra)
        rw [List.cons_append, printed, Option.bind_some]
        have later := ih behind nonzero' others
          (fun f member => prints f (List.mem_cons_of_mem _ member))
        exact later.map text
      · rw [if_neg known] at takes
        rw [printArg_default _ known, Option.bind_some]
        exact (ih behind nonzero' takes prints).map [37, d]
  | case4 c d s other ih =>
      have behind : buffer.drop (format + 1) = d :: s ++ [0] := by
        rw [← List.tail_drop, here]
        rfl
      have nonzero' : 0 ∉ d :: s := fun zero => nonzero (List.mem_cons_of_mem c zero)
      have stop : format + (c :: d :: s).length = format + 1 + (d :: s).length := by
        rw [List.length_cons]
        omega
      rw [conversions, if_neg other] at takes
      rw [Closed, if_neg other, printFrom_char here (fun zero => nonzero (by simp [zero])) other,
        stop]
      exact (ih behind nonzero' takes prints).map [c]

end Loop

/-- A format prints a number where it has a conversion for one. -/
theorem printkInt_isSome (n : Int32) {buffer t : List UInt8} (ends : buffer = t ++ [0])
    (nonzero : 0 ∉ t) (closed : Closed t) (one : conversions t = [100])
    : ∃ text, printkInt buffer [(Arg.int n : Arg Double)] = some text := by
  have takes : List.Forall₂ Takes (conversions t) [(Arg.int n : Arg Double)] := by
    rw [one]
    exact .cons (.decimal n) .nil
  have noDouble : ∀ f, Arg.double f ∈ [(Arg.int n : Arg Double)]
      → ∃ text, (fun _ : Double => (none : Option (List UInt8))) f = some text := by
    intro f member
    cases List.mem_singleton.mp member
  have here : buffer.drop 0 = t ++ [0] := ends
  obtain ⟨text, printed⟩ := (printFrom_eq [] here nonzero takes noDouble).1 closed
  exact ⟨text, by rw [printkInt, ← List.append_nil [Arg.int n], printed]; rfl⟩

theorem printDigits_isSome (doubles : Doubles Double) (n : Nat) (f : Double) (whole : Int32)
    : ∃ text, printDigits doubles n f whole = some text := by
  induction n generalizing f whole with
  | zero => exact ⟨[], rfl⟩
  | succ n ih =>
      let f' := doubles.timesTen (doubles.minus f whole)
      have format : [37, 100, 0] = [37, 100] ++ [(0 : UInt8)] := rfl
      have digit : ∃ text, printkInt [37, 100, 0] [(Arg.int (doubles.toInt f') : Arg Double)]
          = some text :=
        printkInt_isSome _ format (by decide) (by simp [Closed]) (by decide)
      obtain ⟨digit, printed⟩ := digit
      obtain ⟨rest, printed'⟩ := ih f' (doubles.toInt f')
      exact ⟨digit ++ rest, by simp [printDigits, f', printed, printed']⟩

theorem printDouble_isSome (doubles : Doubles Double) (f : Double)
    : ∃ text, printDouble doubles f = some text := by
  let f' := if doubles.isNegative f then doubles.negated f else f
  have format : [37, 100, 46, 0] = [37, 100, 46] ++ [(0 : UInt8)] := rfl
  have front : ∃ text, printkInt [37, 100, 46, 0] [(Arg.int (doubles.toInt f') : Arg Double)]
      = some text :=
    printkInt_isSome _ format (by decide) (by simp [Closed]) (by decide)
  obtain ⟨front, printed⟩ := front
  obtain ⟨digits, printed'⟩ := printDigits_isSome doubles 4 f' (doubles.toInt f')
  refine ⟨(if doubles.isNegative f then [45] else []) ++ front ++ digits, ?_⟩
  simp only [printDouble, f', printed, printed', Option.bind_eq_bind, Option.bind_some]
  rfl

/-- `v_printk` stops at the zero that ends its format, and each conversion takes one argument, if
the number of `%` at the end of the format is even. Otherwise it reads behind the zero. A `%` takes
the character behind it without looking at it, so an odd number of them at the end takes the zero.
-/
theorem vPrintk_stops_iff (doubles : Doubles Double) {s : List UInt8} (nonzero : 0 ∉ s)
    {used : List (Arg Double)} (takes : List.Forall₂ Takes (conversions s) used)
    (extra : List (Arg Double))
    : (∃ text, vPrintk doubles (s ++ [0]) (used ++ extra) = some (text, extra, s.length))
      ↔ Even (trailing s) := by
  rw [← closed_iff]
  have here : (s ++ [0]).drop 0 = s ++ [0] := rfl
  obtain ⟨closed, opened⟩ :=
    printFrom_eq extra here nonzero takes (fun f _ => printDouble_isSome doubles f)
  constructor
  · rintro ⟨text, printed⟩
    by_contra isOpen
    cases printed.symm.trans (opened isOpen)
  · intro isClosed
    obtain ⟨text, printed⟩ := closed isClosed
    exact ⟨text, by rw [vPrintk, printed, Nat.zero_add]⟩

/-- The format `%d%%`. -/
theorem vPrintk_stops_iff_percent
    : ∃ text, vPrintk
        (⟨fun f => decide (f < 0), fun f => -f, Int32.ofInt, fun f n => f - n.toInt,
          fun f => 10 * f⟩ : Doubles Int)
        [37, 100, 37, 37, 0] [.int 5, .int 7] = some (text, [.int 7], 4) :=
  (vPrintk_stops_iff _ (s := [37, 100, 37, 37]) (by decide) (.cons (.decimal 5) .nil)
    [.int 7]).mpr (by decide)

/-- The format `%` is read behind its end. -/
theorem vPrintk_not_stops
    : ¬ ∀ (Double : Type) (doubles : Doubles Double) (s : List UInt8) (used extra : List (Arg Double)),
      0 ∉ s → List.Forall₂ Takes (conversions s) used
      → ∃ text, vPrintk doubles (s ++ [0]) (used ++ extra) = some (text, extra, s.length) := by
  intro always
  have doubles : Doubles Unit := ⟨fun _ => false, id, fun _ => 0, fun f _ => f, id⟩
  obtain ⟨text, printed⟩ := always Unit doubles [37] [] [] (by decide) .nil
  have here : [37, 0].drop 0 = [37] ++ [(0 : UInt8)] := rfl
  have takes : List.Forall₂ Takes (conversions [37]) ([] : List (Arg Unit)) := .nil
  have none := (printFrom_eq [] here (by decide) takes
    (fun f _ => printDouble_isSome doubles f)).2 (by simp [Closed])
  cases printed.symm.trans none

end Hydrangea
