import Mathlib.Tactic

/-! Computations on a state that leave a trace of events and may stop, and what holds of their
traces and of the states they stop and return in.
-/

/-- How a run of a computation ends: `result` is `none` if it has stopped. -/
structure Traced.Outcome (ε σ α : Type) where
  events : List ε
  state : σ
  result : Option α

def Traced.Outcome.returned {ε σ α : Type} (o : Traced.Outcome ε σ α) : Option (α × σ) :=
  o.result.map (fun a => (a, o.state))

def Traced (ε σ α : Type) : Type :=
  σ → Traced.Outcome ε σ α

namespace Traced

variable {ε σ α β : Type}

instance : Monad (Traced ε σ) where
  pure a s := ⟨[], s, some a⟩
  bind x f s :=
    match x s with
    | ⟨events, s', none⟩ => ⟨events, s', none⟩
    | ⟨events, s', some a⟩ =>
        match f a s' with
        | ⟨later, s'', result⟩ => ⟨events ++ later, s'', result⟩

def stop : Traced ε σ α :=
  fun s => ⟨[], s, none⟩

def emit (e : ε) : Traced ε σ Unit :=
  fun s => ⟨[e], s, some ()⟩

def ofOption (a : Option α) : Traced ε σ α :=
  fun s => ⟨[], s, a⟩

def state : Traced ε σ σ :=
  fun s => ⟨[], s, some s⟩

def enter (s' : σ) : Traced ε σ Unit :=
  fun _ => ⟨[], s', some ()⟩

/-- From a state, every event of a computation meets `event`; if it stops, the state it stops in
meets `stopped`; if it returns, the value and the state meet `returned`.
-/
structure Meets (x : Traced ε σ α) (s : σ) (event : ε → Prop) (stopped : σ → Prop)
    (returned : α → σ → Prop) : Prop where
  events : ∀ e ∈ (x s).events, event e
  stops : (x s).result = none → stopped (x s).state
  returns : ∀ a, (x s).result = some a → returned a (x s).state

section

variable {s : σ} {event : ε → Prop} {stopped : σ → Prop}

/-- A computation that must not stop returns. -/
theorem Meets.total {x : Traced ε σ α} {returned : α → σ → Prop}
    (h : x.Meets s event (fun _ => False) returned)
    : ∃ a, (x s).result = some a ∧ returned a (x s).state := by
  cases ended : (x s).result with
  | none => exact (h.stops ended).elim
  | some a => exact ⟨a, rfl, h.returns a ended⟩

/-- Weaker conditions are met as well. -/
theorem Meets.mono {x : Traced ε σ α} {event' : ε → Prop} {stopped' : σ → Prop}
    {returned returned' : α → σ → Prop} (h : x.Meets s event stopped returned)
    (he : ∀ e, event e → event' e) (hs : ∀ s', stopped s' → stopped' s')
    (hr : ∀ a s', returned a s' → returned' a s')
    : x.Meets s event' stopped' returned' where
  events e member := he e (h.events e member)
  stops ended := hs _ (h.stops ended)
  returns a ended := hr a _ (h.returns a ended)

theorem meets_pure {returned : α → σ → Prop} {a : α} (h : returned a s)
    : (pure a : Traced ε σ α).Meets s event stopped returned where
  events _ member := (List.not_mem_nil member).elim
  stops ended := (Option.some_ne_none a ended).elim
  returns b ended := by
    cases ended
    exact h

/-- A computation that stops is not followed by another one. -/
theorem bind_of_stopped {x : Traced ε σ α} {f : α → Traced ε σ β} {events : List ε} {s' : σ}
    (ran : x s = ⟨events, s', none⟩)
    : (x >>= f) s = ⟨events, s', none⟩ := by
  change (match x s with
    | ⟨events, s', none⟩ => _
    | ⟨events, s', some a⟩ => _) = _
  rw [ran]

/-- A computation that returns is followed by the next one, on its value and state. -/
theorem bind_of_returned {x : Traced ε σ α} {f : α → Traced ε σ β} {events : List ε} {s' : σ}
    {a : α} (ran : x s = ⟨events, s', some a⟩)
    : (x >>= f) s = ⟨events ++ (f a s').events, (f a s').state, (f a s').result⟩ := by
  change (match x s with
    | ⟨events, s', none⟩ => _
    | ⟨events, s', some a⟩ => _) = _
  rw [ran]

theorem Meets.bind {x : Traced ε σ α} {f : α → Traced ε σ β} {returned : β → σ → Prop}
    (h : x.Meets s event stopped (fun a s' => (f a).Meets s' event stopped returned))
    : (x >>= f).Meets s event stopped returned := by
  obtain ⟨events, stops, returns⟩ := h
  rcases ran : x s with ⟨emitted, s', result⟩
  rw [ran] at events stops returns
  cases result with
  | none =>
      have whole := bind_of_stopped (f := f) ran
      refine ⟨?_, ?_, ?_⟩
      · rw [whole]
        exact events
      · rw [whole]
        exact fun _ => stops rfl
      · rw [whole]
        exact fun _ ended => by cases ended
  | some a =>
      obtain ⟨laterEvents, laterStops, laterReturns⟩ := returns a rfl
      have whole := bind_of_returned (f := f) ran
      refine ⟨?_, ?_, ?_⟩
      · rw [whole]
        intro e member
        rcases List.mem_append.mp member with first | second
        · exact events e first
        · exact laterEvents e second
      · rw [whole]
        exact laterStops
      · rw [whole]
        exact laterReturns

theorem meets_stop {returned : α → σ → Prop} (h : stopped s)
    : (stop : Traced ε σ α).Meets s event stopped returned where
  events _ member := (List.not_mem_nil member).elim
  stops _ := h
  returns _ ended := by cases ended

/-- Taking a value that may be there. -/
theorem meets_ofOption {returned : α → σ → Prop} {o : Option α} (hs : o = none → stopped s)
    (hr : ∀ a, o = some a → returned a s)
    : (ofOption o : Traced ε σ α).Meets s event stopped returned where
  events _ member := (List.not_mem_nil member).elim
  stops := hs
  returns := hr

theorem meets_emit {returned : Unit → σ → Prop} {e : ε} (he : event e) (h : returned () s)
    : (emit e : Traced ε σ Unit).Meets s event stopped returned where
  events e' member := by
    obtain rfl := List.mem_singleton.mp member
    exact he
  stops ended := by cases ended
  returns _ _ := h

/-- What holds of the states that a computation stops and returns in holds of the one it ends in. -/
theorem Meets.ends {x : Traced ε σ α} {kept : σ → Prop} (h : x.Meets s event kept (fun _ => kept))
    : kept (x s).state := by
  cases ended : (x s).result with
  | none => exact h.stops ended
  | some a => exact h.returns a ended

theorem meets_state {returned : σ → σ → Prop} (h : returned s s)
    : (state : Traced ε σ σ).Meets s event stopped returned where
  events _ member := (List.not_mem_nil member).elim
  stops ended := by cases ended
  returns a ended := by
    cases ended
    exact h

/-- Going on in another state. -/
theorem meets_enter {returned : Unit → σ → Prop} {s' : σ} (h : returned () s')
    : (enter s' : Traced ε σ Unit).Meets s event stopped returned where
  events _ member := (List.not_mem_nil member).elim
  stops ended := by cases ended
  returns _ _ := h

/-- What a computation returns is its result and the state it ends in. -/
theorem returned_eq_some {o : Outcome ε σ α} {a : α} {s' : σ}
    : o.returned = some (a, s') ↔ o.result = some a ∧ o.state = s' := by
  rw [Outcome.returned, Option.map_eq_some_iff]
  constructor
  · rintro ⟨b, ended, same⟩
    obtain ⟨rfl, rfl⟩ := Prod.mk.inj same
    exact ⟨ended, rfl⟩
  · rintro ⟨ended, rfl⟩
    exact ⟨a, ended, rfl⟩

/-- Of two computations, the second one goes on where the first one has returned. -/
theorem returned_bind (x : Traced ε σ α) (f : α → Traced ε σ β) (s : σ)
    : ((x >>= f) s).returned = (x s).returned.bind (fun r => (f r.1 r.2).returned) := by
  rcases ran : x s with ⟨emitted, s', result⟩
  cases result with
  | none =>
      rw [bind_of_stopped ran]
      rfl
  | some a =>
      rw [bind_of_returned ran]
      rfl

/-- Every event of a run meets a condition. -/
def Always (x : Traced ε σ α) (s : σ) (event : ε → Prop) : Prop :=
  ∀ e ∈ (x s).events, event e

/-- The events of a computation come first in what it begins. -/
theorem Always.first {x : Traced ε σ α} {f : α → Traced ε σ β} (h : (x >>= f).Always s event)
    : x.Always s event := by
  rcases ran : x s with ⟨emitted, s', result⟩
  cases result with
  | none =>
      rw [Always, bind_of_stopped ran] at h
      rw [Always, ran]
      exact h
  | some a =>
      rw [Always, bind_of_returned ran] at h
      rw [Always, ran]
      exact fun e member => h e (List.mem_append_left _ member)

/-- Then those of what follows. -/
theorem Always.next {x : Traced ε σ α} {f : α → Traced ε σ β} {a : α}
    (h : (x >>= f).Always s event) (ended : (x s).result = some a)
    : (f a).Always (x s).state event := by
  rcases ran : x s with ⟨emitted, s', result⟩
  rw [ran] at ended
  obtain rfl : result = some a := ended
  rw [Always, bind_of_returned ran] at h
  exact fun e member => h e (List.mem_append_right _ member)

/-- Returning a value leaves no events. -/
theorem always_pure (a : α) : (pure a : Traced ε σ α).Always s event :=
  fun _ member => (List.not_mem_nil member).elim

/-- Every event of one computation after another meets a condition if those of both do. -/
theorem always_bind {x : Traced ε σ α} {f : α → Traced ε σ β}
    : (x >>= f).Always s event
      ↔ x.Always s event ∧ ∀ a, (x s).result = some a → (f a).Always (x s).state event := by
  constructor
  · exact fun h => ⟨h.first, fun a ended => h.next ended⟩
  · rintro ⟨first, next⟩
    rcases ran : x s with ⟨emitted, s', result⟩
    rw [ran] at next
    rw [Always, ran] at first
    cases result with
    | none =>
        rw [Always, bind_of_stopped ran]
        exact first
    | some a =>
        rw [Always, bind_of_returned ran]
        intro e member
        rcases List.mem_append.mp member with here | later
        · exact first e here
        · exact next a rfl e later

theorem always_bind_of_returned {x : Traced ε σ α} {f : α → Traced ε σ β} {a : α} {s' : σ}
    (ended : (x s).returned = some (a, s'))
    : (x >>= f).Always s event ↔ x.Always s event ∧ (f a).Always s' event := by
  obtain ⟨result, state⟩ := returned_eq_some.mp ended
  rw [always_bind, result, state]
  refine and_congr_right (fun _ => ⟨fun h => h a rfl, fun h b same => ?_⟩)
  obtain rfl := Option.some.inj same
  exact h

/-- A computation that returns has returned from its first part. -/
theorem returned_of_bind {x : Traced ε σ α} {f : α → Traced ε σ β} {b : β}
    (ended : ((x >>= f) s).result = some b)
    : ∃ a, (x s).result = some a := by
  rcases ran : x s with ⟨emitted, s', result⟩
  cases result with
  | none =>
      rw [bind_of_stopped ran] at ended
      cases ended
  | some a => exact ⟨a, rfl⟩

/-- Once the first part has returned, the second one decides. -/
theorem result_bind {x : Traced ε σ α} {f : α → Traced ε σ β} {a : α}
    (ended : (x s).result = some a)
    : ((x >>= f) s).result = (f a (x s).state).result
      ∧ ((x >>= f) s).state = (f a (x s).state).state := by
  rcases ran : x s with ⟨emitted, s', result⟩
  rw [ran] at ended
  obtain rfl : result = some a := ended
  rw [bind_of_returned ran]
  exact ⟨rfl, rfl⟩

/-- Its events are those of the first part and then those of the second one. -/
theorem events_bind {x : Traced ε σ α} {f : α → Traced ε σ β} {a : α}
    (ended : (x s).result = some a)
    : ((x >>= f) s).events = (x s).events ++ (f a (x s).state).events := by
  rcases ran : x s with ⟨emitted, s', result⟩
  rw [ran] at ended
  obtain rfl : result = some a := ended
  rw [bind_of_returned ran]

/-- A computation returns, and every event of it meets a condition. -/
def Ends (x : Traced ε σ α) (s : σ) (event : ε → Prop) (a : α) (s' : σ) : Prop :=
  (x s).returned = some (a, s') ∧ x.Always s event

theorem not_ends_stop {a : α} {s' : σ} : ¬ (stop : Traced ε σ α).Ends s event a s' := by
  rintro ⟨ended, -⟩
  cases ended

theorem ends_pure {a b : α} {s' : σ}
    : (pure a : Traced ε σ α).Ends s event b s' ↔ b = a ∧ s' = s := by
  constructor
  · rintro ⟨ended, -⟩
    cases ended
    exact ⟨rfl, rfl⟩
  · rintro ⟨rfl, rfl⟩
    exact ⟨rfl, always_pure b⟩

theorem ends_emit {e : ε} {u : Unit} {s' : σ}
    : (emit e : Traced ε σ Unit).Ends s event u s' ↔ event e ∧ s' = s := by
  constructor
  · rintro ⟨ended, all⟩
    cases ended
    exact ⟨all e (List.mem_singleton_self e), rfl⟩
  · rintro ⟨meets, rfl⟩
    exact ⟨rfl, fun e' member => List.mem_singleton.mp member ▸ meets⟩

theorem ends_state {a s' : σ} : (state : Traced ε σ σ).Ends s event a s' ↔ a = s ∧ s' = s := by
  constructor
  · rintro ⟨ended, -⟩
    cases ended
    exact ⟨rfl, rfl⟩
  · rintro ⟨rfl, rfl⟩
    exact ⟨rfl, fun e member => (List.not_mem_nil member).elim⟩

/-- Going on in another state. -/
theorem ends_enter {u : Unit} {s' s'' : σ}
    : (enter s' : Traced ε σ Unit).Ends s event u s'' ↔ s'' = s' := by
  constructor
  · rintro ⟨ended, -⟩
    cases ended
    rfl
  · rintro rfl
    exact ⟨rfl, fun e member => (List.not_mem_nil member).elim⟩

/-- One computation after another ends if both do. -/
theorem ends_bind {x : Traced ε σ α} {f : α → Traced ε σ β} {b : β} {s'' : σ}
    : (x >>= f).Ends s event b s'' ↔ ∃ a s', x.Ends s event a s' ∧ (f a).Ends s' event b s'' := by
  constructor
  · rintro ⟨ended, all⟩
    rw [returned_bind] at ended
    obtain ⟨⟨a, s'⟩, first, rest⟩ := Option.bind_eq_some_iff.mp ended
    obtain ⟨before, behind⟩ := (always_bind_of_returned first).mp all
    exact ⟨a, s', ⟨first, before⟩, rest, behind⟩
  · rintro ⟨a, s', ⟨first, before⟩, rest, behind⟩
    refine ⟨?_, (always_bind_of_returned first).mpr ⟨before, behind⟩⟩
    rw [returned_bind, first]
    exact rest

end

end Traced
