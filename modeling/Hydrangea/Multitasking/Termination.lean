import Hydrangea.Multitasking.TaskLists

/-! What `mt_task_terminate` moves. It goes down one line of first children; the walk over
the children of a task continues from the child just moved, that is, in
`terminated_tasks`. So it never sees a second live child, and it does not return once it meets
a terminated one.
-/

namespace Hydrangea.Sched

-----------------------------------------------------------------------------------------
-- Lines of children
-----------------------------------------------------------------------------------------

section Lines

variable {pid ppid : Nat → Nat}

/-- The line of first live children from `t` down, with the live tasks left beside it. A task
that has a live child has none among the tasks `dead` that are terminated by then.
-/
inductive Descent (pid ppid : Nat → Nat)
    : (live dead : List Nat) → (t : Nat) → (line rest : List Nat) → Prop where
  | last {live dead t} (childless : ∀ c ∈ live, ppid c ≠ pid t)
    : Descent pid ppid live dead t [] live
  | child {front back dead t c line rest} (before : ∀ b ∈ front, ppid b ≠ pid t)
      (first : ppid c = pid t) (clear : ∀ z ∈ dead, ppid z ≠ pid t)
      (down : Descent pid ppid (front ++ back) (c :: dead) c line rest)
    : Descent pid ppid (front ++ c :: back) dead t (c :: line) rest

/-- From `t` down, every task met has at most one live child left, and one that has a live
child has none among the tasks terminated by then.
-/
inductive OnlyChildren (pid ppid : Nat → Nat)
    : (live dead : List Nat) → (t : Nat) → Prop where
  | last {live dead t} (childless : ∀ c ∈ live, ppid c ≠ pid t)
    : OnlyChildren pid ppid live dead t
  | child {front back dead t c} (before : ∀ b ∈ front, ppid b ≠ pid t)
      (only : ppid c = pid t) (after : ∀ b ∈ back, ppid b ≠ pid t)
      (clear : ∀ z ∈ dead, ppid z ≠ pid t)
      (down : OnlyChildren pid ppid (front ++ back) (c :: dead) c)
    : OnlyChildren pid ppid (front ++ c :: back) dead t

/-- `t` and its live descendants. -/
inductive Family (pid ppid : Nat → Nat) (live : List Nat) (t : Nat) : Nat → Prop where
  | self : Family pid ppid live t t
  | child {p q} (parent : Family pid ppid live t q) (member : p ∈ live) (link : ppid p = pid q)
    : Family pid ppid live t p

/-- A line and what is left beside it make up the live tasks, by induction on the line. -/
theorem Descent.perm {live dead line rest : List Nat} {t : Nat}
    (h : Descent pid ppid live dead t line rest)
    : live.Perm (line ++ rest) := by
  induction h with
  | last => exact .refl _
  | child _ _ _ _ ih => exact List.perm_middle.trans (.cons _ ih)

/-- The tasks left beside a line keep their order, by induction on the line. -/
theorem Descent.sublist {live dead line rest : List Nat} {t : Nat}
    (h : Descent pid ppid live dead t line rest)
    : rest.Sublist live := by
  induction h with
  | last => exact .refl _
  | child _ _ _ _ ih => exact ih.trans (.append_left (List.sublist_cons_self _ _) _)

/-- The tasks of a line belong to the family of its start, by induction on the line. -/
theorem Descent.family {live dead line rest all : List Nat} {t top : Nat}
    (h : Descent pid ppid live dead t line rest) (part : live ⊆ all)
    (start : Family pid ppid all top t) {p : Nat} (member : p ∈ line)
    : Family pid ppid all top p := by
  induction h with
  | last => cases member
  | @child front back _ _ c _ _ _ first _ _ ih =>
      have here : Family pid ppid all top c := .child start (part (by simp)) first
      have rest : front ++ back ⊆ all := fun q inside => part (by
        simp only [List.mem_append, List.mem_cons] at inside ⊢
        tauto)
      rcases List.mem_cons.mp member with rfl | later
      · exact here
      · exact ih rest here later

/-- No task terminated before a line has the parent of a task of the line, by induction on
the line.
-/
theorem Descent.apart {live dead line rest : List Nat} {t : Nat}
    (h : Descent pid ppid live dead t line rest) {d z : Nat} (member : d ∈ line)
    (old : z ∈ dead)
    : ppid z ≠ ppid d := by
  induction h with
  | last => cases member
  | child _ first clear _ ih =>
      rcases List.mem_cons.mp member with rfl | later
      · rw [first]
        exact clear z old
      · exact ih later (List.mem_cons_of_mem _ old)

/-- Only children form a line, which holds all live children of its start and of its tasks,
by induction on the children.
-/
theorem OnlyChildren.descent {live dead : List Nat} {t : Nat}
    (h : OnlyChildren pid ppid live dead t)
    : ∃ line rest, Descent pid ppid live dead t line rest
        ∧ ∀ p ∈ live, ∀ q, q = t ∨ q ∈ line → ppid p = pid q → p ∈ line := by
  induction h with
  | last childless =>
      refine ⟨_, _, .last childless, fun p member q parent link => ?_⟩
      rcases parent with rfl | none
      · exact absurd link (childless p member)
      · cases none
  | child before only after clear _ ih =>
      obtain ⟨line, rest, down, closed⟩ := ih
      refine ⟨_, _, .child before only clear down, fun p member q parent link => ?_⟩
      rcases List.mem_append.mp member with inFront | inBack
      · rcases parent with rfl | onLine
        · exact absurd link (before p inFront)
        · have inside := closed p (List.mem_append_left _ inFront) q (List.mem_cons.mp onLine) link
          exact List.mem_cons_of_mem _ inside
      · rcases List.mem_cons.mp inBack with rfl | inBack
        · exact List.mem_cons_self ..
        · rcases parent with rfl | onLine
          · exact absurd link (after p inBack)
          · have inside :=
              closed p (List.mem_append_right _ inBack) q (List.mem_cons.mp onLine) link
            exact List.mem_cons_of_mem _ inside

/-- Only children: no task met has two live ones. -/
theorem OnlyChildren.filter_length {live dead : List Nat} {t : Nat}
    (h : OnlyChildren pid ppid live dead t)
    : (live.filter (fun c => ppid c = pid t)).length ≤ 1 := by
  cases h with
  | last childless =>
      rw [List.filter_eq_nil_iff.mpr (by simpa using childless)]
      exact Nat.zero_le _
  | child before only after =>
      rw [List.filter_append, List.filter_eq_nil_iff.mpr (by simpa using before),
        List.filter_cons_of_pos (by simpa using only),
        List.filter_eq_nil_iff.mpr (by simpa using after)]
      exact Nat.le_refl _

/-- A line that holds all live children of its start and of its tasks passes through only
children, by induction on the line: a second child of one task would be the child of a later
one as well, and that one has a terminated child.
-/
theorem Descent.onlyChildren {live dead line rest : List Nat} {t : Nat}
    (h : Descent pid ppid live dead t line rest) (nodup : live.Nodup)
    (closed : ∀ p ∈ live, ∀ q, q = t ∨ q ∈ line → ppid p = pid q → p ∈ line)
    : OnlyChildren pid ppid live dead t := by
  induction h with
  | last childless => exact .last childless
  | @child front back dead t c line rest before first clear down ih =>
      have perm : (front ++ c :: back).Perm (c :: (front ++ back)) := List.perm_middle
      obtain ⟨fresh, nodup'⟩ := List.nodup_cons.mp (perm.nodup_iff.mp nodup)
      have onLine {p : Nat} (member : p ∈ front ++ back) {q : Nat}
          (parent : q = t ∨ q ∈ c :: line) (link : ppid p = pid q)
          : p ∈ line := by
        have inside := closed p (perm.mem_iff.mpr (List.mem_cons_of_mem _ member)) q parent link
        rcases List.mem_cons.mp inside with rfl | later
        · exact absurd member fresh
        · exact later
      have after : ∀ b ∈ back, ppid b ≠ pid t := by
        intro b member link
        have later := onLine (List.mem_append_right _ member) (Or.inl rfl) link
        refine down.apart later (List.mem_cons_self ..) ?_
        rw [first, link]
      refine .child before first after clear (ih nodup' ?_)
      intro p member q parent link
      exact onLine member (Or.inr (List.mem_cons.mpr parent)) link

end Lines

-----------------------------------------------------------------------------------------
-- The loop over the children
-----------------------------------------------------------------------------------------

theorem SameTasks.pid_eq {s s' : Sched} (h : s.SameTasks s') : s'.pid = s.pid :=
  funext h.pid

theorem SameTasks.ppid_eq {s s' : Sched} (h : s.SameTasks s') : s'.ppid = s.ppid :=
  funext h.ppid

/-- The walk passes over tasks that are no children, by induction on them. -/
theorem terminateChildren_pass {s : Sched} {t : Nat} {xs ys : List Nat} {p : Option Nat}
    (chain : Linked.Chain s.next p (xs ++ ys)) (childless : ∀ c ∈ xs, s.ppid c ≠ s.pid t)
    (fuel : Nat)
    : s.terminateChildren (xs.length + fuel) t p = s.terminateChildren fuel t ys.head? := by
  induction xs generalizing p with
  | nil =>
      rw [show p = ys.head? from Linked.Chain.head chain, List.length_nil, Nat.zero_add]
  | cons x xs ih =>
      obtain ⟨rfl, rest⟩ := chain
      have skip : ¬ (s.task x).ppid = (s.task t).pid := childless x (by simp)
      have tail := ih rest (fun c member => childless c (by simp [member]))
      rw [List.length_cons, Nat.add_right_comm, terminateChildren]
      simp only [if_neg skip, Option.bind_eq_bind, Option.bind_some]
      exact tail

/-- A walk over no children changes nothing if it returns, by induction on the tasks. -/
theorem terminateChildren_none {s s' : Sched} {t fuel : Nat} {xs : List Nat} {p : Option Nat}
    (chain : Linked.Chain s.next p xs) (childless : ∀ c ∈ xs, s.ppid c ≠ s.pid t)
    (returned : s.terminateChildren fuel t p = some s')
    : s' = s := by
  induction xs generalizing p fuel with
  | nil =>
      rw [show p = none from chain, terminateChildren] at returned
      exact (Option.some.inj returned).symm
  | cons x xs ih =>
      obtain ⟨rfl, rest⟩ := chain
      cases fuel with
      | zero => simp [terminateChildren] at returned
      | succ fuel =>
          have skip : ¬ (s.task x).ppid = (s.task t).pid := childless x (by simp)
          simp only [terminateChildren, if_neg skip, Option.bind_eq_bind, Option.bind_some]
            at returned
          exact ih rest (fun c member => childless c (by simp [member])) returned

/-- What the loop over the children of `t` does with `fuel`, from a task of `tasks` behind
tasks that are no children: if it returns, it has moved a line of first children.
-/
def MovesLine (fuel : Nat) : Prop :=
  ∀ (front : List Nat) {back dead : List Nat} {s s' : Sched} {t : Nat},
    s.View (front ++ back) (t :: dead) → s.pid t ≠ 0 → (∀ b ∈ front, s.ppid b ≠ s.pid t) →
    s.terminateChildren fuel t back.head? = some s' →
    ∃ line rest, Descent s.pid s.ppid (front ++ back) (t :: dead) t line rest
      ∧ s'.View rest (line.reverse ++ t :: dead) ∧ s.SameTasks s'

/-- The loop over the children of `t` with `fuel`, from a task of `terminated_tasks` on that
has a child of `t` at or behind it and a task before it, does not return when `t` has two
terminated children.
-/
def LoopsForever (fuel : Nat) : Prop :=
  ∀ {s : Sched} {live front back : List Nat} {t w c c' : Nat},
    s.View live (front ++ w :: back) → c ∈ back → s.ppid c = s.pid t →
    c' ∈ front ++ w :: back → c' ≠ c → s.ppid c' = s.pid t →
    s.terminateChildren fuel t back.head? = none

/-- The first child of a task has a task before it, since `kernel_idle` is no child. -/
theorem View.move_child {s : Sched} {front back dead : List Nat} {t c : Nat}
    (view : s.View (front ++ c :: back) dead) (pid : s.pid t ≠ 0) (link : s.ppid c = s.pid t)
    : s.pid c ≠ 0 ∧ (s.moveToTerminated c).View (front ++ back) (c :: dead) := by
  have pidC : s.pid c ≠ 0 := by
    refine view.pid_of_ppid (by simp) ?_
    rw [show (s.task c).ppid = s.pid t from link]
    exact pid
  refine ⟨pidC, ?_⟩
  rcases List.eq_nil_or_concat' front with rfl | ⟨front, w, rfl⟩
  · obtain ⟨p, first, zero, -⟩ := view.idle
    obtain rfl : c = p := by simpa using first
    exact absurd zero pidC
  · have split : front ++ [w] ++ c :: back = front ++ w :: c :: back := by simp
    rw [split] at view
    simpa using view.move_live

/-- A call that returns has moved the task and then a line of first children. -/
theorem mtTaskTerminate_line {fuel : Nat} (moves : ∀ n < fuel, MovesLine n) {s s' : Sched}
    {live dead : List Nat} {t : Nat} (moved : (s.moveToTerminated t).View live (t :: dead))
    (pid : s.pid t ≠ 0) (returned : s.mtTaskTerminate fuel t = some s')
    : ∃ line rest, Descent s.pid s.ppid live (t :: dead) t line rest
        ∧ s'.View rest (line.reverse ++ t :: dead) ∧ s.SameTasks s' := by
  cases fuel with
  | zero => simp [mtTaskTerminate] at returned
  | succ fuel =>
      have same := moveToTerminated_same s t
      have pid' : (s.moveToTerminated t).pid t ≠ 0 := by
        rw [same.pid_eq]
        exact pid
      simp only [mtTaskTerminate, if_neg pid] at returned
      rw [moved.tasks.chain.head] at returned
      obtain ⟨line, rest, descent, view, same'⟩ :=
        moves fuel (Nat.lt_succ_self _) [] moved pid' (by simp) returned
      rw [same.pid_eq, same.ppid_eq] at descent
      exact ⟨line, rest, descent, view, same.trans same'⟩

/-- One step of the endless walk: a child met is moved to the front of `terminated_tasks`,
and the walk goes on with all the others.
-/
theorem LoopsForever.step {n : Nat} (moves : ∀ fuel < n, MovesLine fuel)
    (loops : ∀ fuel < n, LoopsForever fuel)
    : LoopsForever n := by
  intro s live front back t w c c' view member child member' distinct child'
  cases back with
  | nil => cases member
  | cons q back =>
      cases n with
      | zero => rfl
      | succ fuel =>
          rw [List.head?_cons, terminateChildren]
          rcases eq_or_ne (s.task q).ppid (s.task t).pid with met | skip
          · simp only [if_pos met, Option.bind_eq_bind]
            cases result : s.mtTaskTerminate fuel q with
            | none => rfl
            | some s' =>
                obtain ⟨line, rest, -, view', same⟩ := mtTaskTerminate_line
                  (fun k small => moves k (by omega)) view.move_dead
                  (view.others q (Or.inr (by simp))) result
                have next : (s'.task q).next = (front ++ w :: back).head? :=
                  view'.terminatedTasks.chain.next_eq
                -- one of the two children is still ahead, the other one somewhere on the list
                have ahead : ∃ d ∈ front ++ w :: back, s.ppid d = s.pid t ∧ d ≠ q := by
                  rcases eq_or_ne c q with rfl | other
                  · refine ⟨c', ?_, child', distinct⟩
                    simp only [List.mem_append, List.mem_cons] at member' ⊢
                    tauto
                  · refine ⟨c, ?_, child, other⟩
                    simp only [List.mem_append, List.mem_cons] at member ⊢
                    tauto
                obtain ⟨d, inside, link, other⟩ := ahead
                rw [Option.bind_some, next]
                refine loops fuel (Nat.lt_succ_self _) view' inside ?_
                  (List.mem_append_right _ (List.mem_cons_self ..)) other.symm ?_
                · rw [same.pid_eq, same.ppid_eq]
                  exact link
                · rw [same.pid_eq, same.ppid_eq]
                  exact met
          · simp only [if_neg skip, Option.bind_eq_bind, Option.bind_some]
            have split : front ++ w :: q :: back = (front ++ [w]) ++ q :: back := by simp
            rw [split] at view member'
            have next : (s.task q).next = back.head? := view.terminatedTasks.chain.next_eq
            have later : c ∈ back := by
              rcases List.mem_cons.mp member with rfl | later
              · exact absurd child skip
              · exact later
            rw [next]
            exact loops fuel (Nat.lt_succ_self _) view later child member' distinct child'

/-- One step of the walk over `tasks`: behind the first child, which takes its line with it,
the walk is in `terminated_tasks`, where it finds nothing or does not return.
-/
theorem MovesLine.step {n : Nat} (moves : ∀ fuel < n, MovesLine fuel)
    (loops : ∀ fuel < n, LoopsForever fuel)
    : MovesLine n := by
  intro front back dead s s' t view pid before returned
  cases back with
  | nil =>
      rw [List.head?_nil, terminateChildren] at returned
      obtain rfl := Option.some.inj returned
      rw [List.append_nil] at view ⊢
      exact ⟨[], front, .last before, view, .refl s⟩
  | cons b back =>
      cases n with
      | zero => simp [terminateChildren] at returned
      | succ fuel =>
          rw [List.head?_cons, terminateChildren] at returned
          rcases eq_or_ne (s.task b).ppid (s.task t).pid with met | skip
          · obtain ⟨pidB, moved⟩ := view.move_child pid met
            simp only [if_pos met, Option.bind_eq_bind, Option.bind_eq_some_iff] at returned
            obtain ⟨s₁, result, returned⟩ := returned
            obtain ⟨line, rest, down, view₁, same⟩ := mtTaskTerminate_line
              (fun k small => moves k (by omega)) moved pidB result
            have next : (s₁.task b).next = (t :: dead).head? :=
              view₁.terminatedTasks.chain.next_eq
            rw [next] at returned
            have clear : ∀ z ∈ t :: dead, s.ppid z ≠ s.pid t := by
              intro z member link
              have distinct : b ≠ z := by
                rintro rfl
                exact view.apart (by simp) member
              have endless := loops fuel (Nat.lt_succ_self _) view₁ member
                (by rw [same.pid_eq, same.ppid_eq]; exact link)
                (List.mem_append_right _ (List.mem_cons_self ..)) distinct
                (by rw [same.pid_eq, same.ppid_eq]; exact met)
              rw [endless] at returned
              cases returned
            have suffix : Linked.Chain s₁.next (t :: dead).head? (t :: dead) := by
              have chain := view₁.terminatedTasks.chain
              rw [show line.reverse ++ b :: t :: dead = (line.reverse ++ [b]) ++ t :: dead by simp]
                at chain
              exact Linked.Chain.suffix chain
            have stays : s' = s₁ :=
              terminateChildren_none suffix (by rw [same.pid_eq, same.ppid_eq]; exact clear) returned
            subst stays
            refine ⟨b :: line, rest, .child before met clear down, ?_, same⟩
            rw [List.reverse_cons, List.append_assoc]
            exact view₁
          · simp only [if_neg skip, Option.bind_eq_bind, Option.bind_some] at returned
            have next : (s.task b).next = back.head? := view.tasks.chain.next_eq
            rw [next] at returned
            have split : front ++ b :: back = (front ++ [b]) ++ back := by simp
            rw [split] at view ⊢
            refine moves fuel (Nat.lt_succ_self _) (front ++ [b]) view pid ?_ returned
            intro p member
            rcases List.mem_append.mp member with old | new
            · exact before p old
            · rw [List.mem_singleton.mp new]
              exact skip

/-- The two facts about the loop hold for every fuel, by strong induction on it. -/
theorem movesLine_and_loopsForever (n : Nat) : MovesLine n ∧ LoopsForever n := by
  induction n using Nat.strong_induction_on with
  | _ n ih =>
      have moves : ∀ k < n, MovesLine k := fun k small => (ih k small).1
      have loops : ∀ k < n, LoopsForever k := fun k small => (ih k small).2
      exact ⟨MovesLine.step moves loops, LoopsForever.step moves loops⟩

theorem movesLine (n : Nat) : MovesLine n :=
  (movesLine_and_loopsForever n).1

/-- What the fuel for a line leaves for the line from the first child on. -/
theorem descent_fuel {front back dead fuel : Nat}
    (enough : (front + (back + 1) + 1) * (front + (back + 1) + dead + 2) ≤ fuel)
    : ∃ k, fuel = front + (k + 2) ∧ (front + back + 1) * (front + back + (dead + 1) + 2) ≤ k
        ∧ dead ≤ k := by
  have total : front + (back + 1) + dead + 2 = front + back + (dead + 1) + 2 := by omega
  have rows : front + (back + 1) + 1 = (front + back + 1) + 1 := by omega
  rw [total, rows, Nat.succ_mul] at enough
  have least : front + back + (dead + 1) + 2
      ≤ (front + back + 1) * (front + back + (dead + 1) + 2) :=
    Nat.le_mul_of_pos_left _ (Nat.succ_pos _)
  exact ⟨fuel - front - 2, by omega, by omega, by omega⟩

/-- A line of first children is moved with enough fuel, by induction on the line: each task
costs a walk over the live and one over the terminated tasks.
-/
theorem Descent.returns {pid ppid : Nat → Nat} {live dead line rest : List Nat} {t fuel : Nat}
    {s : Sched} (h : Descent pid ppid live dead t line rest) (view : s.View live dead)
    (pids : s.pid = pid) (ppids : s.ppid = ppid) (nonzero : pid t ≠ 0)
    (enough : (live.length + 1) * (live.length + dead.length + 2) ≤ fuel)
    : ∃ s', s.terminateChildren fuel t s.tasks = some s'
        ∧ s'.View rest (line.reverse ++ dead) ∧ s.SameTasks s' := by
  induction h generalizing s fuel with
  | @last live dead t childless =>
      have long : live.length ≤ fuel := by
        refine le_trans ?_ enough
        exact le_trans (Nat.le_add_right _ 1) (Nat.le_mul_of_pos_right _ (Nat.succ_pos _))
      obtain ⟨more, rfl⟩ := Nat.exists_eq_add_of_le long
      have chain : Linked.Chain s.next s.tasks (live ++ []) := by simpa using view.tasks.chain
      refine ⟨s, ?_, view, .refl s⟩
      rw [terminateChildren_pass chain (by rw [pids, ppids]; exact childless), List.head?_nil,
        terminateChildren]
  | @child front back dead t c line rest before first clear down ih =>
      -- the walk to the child, then one round and one call
      obtain ⟨fuel, rfl, deeper, wide⟩ : ∃ k, fuel = front.length + (k + 2)
          ∧ ((front ++ back).length + 1)
              * ((front ++ back).length + (c :: dead).length + 2) ≤ k
          ∧ dead.length ≤ k := by
        simp only [List.length_append, List.length_cons] at enough ⊢
        exact descent_fuel enough
      have link : s.ppid c = s.pid t := by
        rw [pids, ppids]
        exact first
      obtain ⟨pidC, moved⟩ := view.move_child (t := t) (by rw [pids]; exact nonzero) link
      have same := moveToTerminated_same s c
      obtain ⟨s₁, result, view₁, same₁⟩ := ih moved (same.pid_eq.trans pids)
        (same.ppid_eq.trans ppids) (by rw [← pids]; exact pidC) deeper
      have called : s.mtTaskTerminate (fuel + 1) c = some s₁ := by
        simp only [mtTaskTerminate, if_neg pidC]
        exact result
      have next : (s₁.task c).next = dead.head? := view₁.terminatedTasks.chain.next_eq
      have round : s.terminateChildren (fuel + 2) t (some c)
          = s₁.terminateChildren (fuel + 1) t dead.head? := by
        rw [terminateChildren, if_pos link, called, ← next]
        rfl
      have suffix : Linked.Chain s₁.next dead.head? (dead ++ []) := by
        have chain := view₁.terminatedTasks.chain
        rw [show line.reverse ++ c :: dead = (line.reverse ++ [c]) ++ dead by simp] at chain
        rw [List.append_nil]
        exact Linked.Chain.suffix chain
      have all := same.trans same₁
      have wide : dead.length ≤ fuel + 1 := Nat.le_succ_of_le wide
      obtain ⟨more, enough'⟩ := Nat.exists_eq_add_of_le wide
      refine ⟨s₁, ?_, by simpa using view₁, all⟩
      rw [terminateChildren_pass view.tasks.chain (by rw [pids, ppids]; exact before),
        List.head?_cons, round, enough', terminateChildren_pass suffix
          (by rw [all.pid_eq, all.ppid_eq, pids, ppids]; exact clear),
        List.head?_nil, terminateChildren]

-----------------------------------------------------------------------------------------
-- Whole calls
-----------------------------------------------------------------------------------------

/-- Between the two states, `t` and exactly its live descendants have gone from `tasks` to
`terminated_tasks`, each once, and both lists are well linked; the tasks left keep their
order.
-/
structure MovesFamily (s s' : Sched) (live dead : List Nat) (t : Nat) : Prop where
  same : s.SameTasks s'
  lists : ∃ live' moved dead', s'.View live' dead'
    ∧ live'.Sublist live ∧ (∀ p ∈ live, p ∈ live' ↔ ¬ Family s.pid s.ppid live t p)
    ∧ dead'.Perm (moved ++ dead) ∧ dead'.Nodup
    ∧ (∀ p, p ∈ moved ↔ Family s.pid s.ppid live t p)

/-- A live task that is not the first one comes off the live tasks once. -/
theorem View.erase {s : Sched} {front back dead : List Nat} {w t : Nat}
    (view : s.View (front ++ w :: t :: back) dead)
    : (front ++ w :: t :: back).erase t = front ++ w :: back := by
  have nodup := view.tasks.chain.nodup
  have apart : t ∉ front := fun inside =>
    (List.nodup_append.mp nodup).2.2 t inside t (by simp) rfl
  have other : w ≠ t := by
    rintro rfl
    exact (List.nodup_cons.mp (List.nodup_append.mp nodup).2.1).1 (by simp)
  rw [List.erase_append_right _ apart, List.erase_cons_tail (by simpa using other),
    List.erase_cons_head]

/-- A call that moved the whole family met only children. -/
theorem MovesFamily.onlyChildren {s s' : Sched} {live dead : List Nat} {t fuel : Nat}
    (view : s.View live dead) (member : t ∈ live) (pid : s.pid t ≠ 0)
    (returned : s.mtTaskTerminate fuel t = some s') (moves : s.MovesFamily s' live dead t)
    : OnlyChildren s.pid s.ppid (live.erase t) (t :: dead) t := by
  obtain ⟨front, w, back, rfl⟩ := view.split member pid
  obtain ⟨-, live', gone, dead', view', -, kept, -, -, -⟩ := moves
  rw [view.erase]
  have moved := view.move_live
  obtain ⟨line, rest, descent, view₁, -⟩ :=
    mtTaskTerminate_line (fun n _ => movesLine n) moved pid returned
  obtain ⟨rfl, -⟩ := view₁.unique view'
  have part : front ++ w :: back ⊆ front ++ w :: t :: back := by
    intro p inside
    simp only [List.mem_append, List.mem_cons] at inside ⊢
    tauto
  refine descent.onlyChildren moved.tasks.chain.nodup (fun p inside q parent link => ?_)
  have familyQ : Family s.pid s.ppid (front ++ w :: t :: back) t q := by
    rcases parent with rfl | onLine
    · exact .self
    · exact descent.family part .self onLine
  have familyP : Family s.pid s.ppid (front ++ w :: t :: back) t p :=
    .child familyQ (part inside) link
  have left : p ∉ live' := fun stays => (kept p (part inside)).mp stays familyP
  rcases List.mem_append.mp (descent.perm.mem_iff.mp inside) with onLine | stays
  · exact onLine
  · exact absurd stays left

/-- Meeting only children, the call returns and moves the whole family: the task and its
line are closed under live children.
-/
theorem OnlyChildren.movesFamily {s : Sched} {live dead : List Nat} {t : Nat}
    (view : s.View live dead) (member : t ∈ live) (pid : s.pid t ≠ 0)
    (only : OnlyChildren s.pid s.ppid (live.erase t) (t :: dead) t)
    : ∃ fuel s', s.mtTaskTerminate fuel t = some s' ∧ s.MovesFamily s' live dead t := by
  obtain ⟨front, w, back, rfl⟩ := view.split member pid
  rw [view.erase] at only
  have nodup := view.tasks.chain.nodup
  have moved := view.move_live
  have same := moveToTerminated_same s t
  have perm : (front ++ w :: t :: back).Perm (t :: (front ++ w :: back)) := by
    refine List.Perm.trans ?_ List.perm_middle
    exact List.Perm.append_left front (List.Perm.swap t w back)
  have part : front ++ w :: back ⊆ front ++ w :: t :: back := fun p inside =>
    perm.mem_iff.mpr (List.mem_cons_of_mem _ inside)
  obtain ⟨line, rest, descent, closed⟩ := only.descent
  obtain ⟨s', result, view', same'⟩ :=
    descent.returns moved same.pid_eq same.ppid_eq pid (Nat.le_refl _)
  obtain ⟨fuel, result⟩ : ∃ fuel, (s.moveToTerminated t).terminateChildren fuel t
      (s.moveToTerminated t).tasks = some s' :=
    ⟨_, result⟩
  have returned : s.mtTaskTerminate (fuel + 1) t = some s' := by
    rw [mtTaskTerminate, if_neg pid]
    exact result
  have family : ∀ p, p ∈ t :: line ↔ Family s.pid s.ppid (front ++ w :: t :: back) t p := by
    intro p
    constructor
    · intro inside
      rcases List.mem_cons.mp inside with rfl | onLine
      · exact .self
      · exact descent.family part .self onLine
    · intro inside
      induction inside with
      | self => exact List.mem_cons_self ..
      | @child p q _ live link ih =>
          rcases List.mem_cons.mp (perm.mem_iff.mp live) with rfl | live
          · exact List.mem_cons_self ..
          · exact List.mem_cons_of_mem _ (closed p live q (List.mem_cons.mp ih) link)
  have whole : (front ++ w :: t :: back).Perm ((t :: line) ++ rest) :=
    perm.trans (.cons _ descent.perm)
  have apart : List.Disjoint (t :: line) rest :=
    List.disjoint_of_nodup_append (whole.nodup_iff.mp nodup)
  refine ⟨_, s', returned, same.trans same', rest, t :: line, _, view', ?_, ?_, ?_,
    view'.terminatedTasks.chain.nodup, family⟩
  · exact descent.sublist.trans (.append_left (.cons_cons w (List.sublist_cons_self _ _)) _)
  · intro p live
    rw [← family p]
    rcases List.mem_append.mp (whole.mem_iff.mp live) with moved | stays
    · exact ⟨fun stays => absurd stays (apart moved), fun left => absurd moved left⟩
    · exact ⟨fun _ moved => apart moved stays, fun _ => stays⟩
  · refine (List.Perm.append_right _ (List.reverse_perm line)).trans ?_
    exact List.perm_middle

/-- Terminating a live task returns and moves exactly its family, exactly if the task and its live
descendants have at most one live child each, and one that has a live child has no terminated one.
The recursion unlinks a task and then goes on along the list from it, which is the list of
terminated tasks from then on, so of several children only the first one is found.
-/
theorem mtTaskTerminate_movesFamily_iff {s : Sched} {live dead : List Nat} {t : Nat}
    (view : s.View live dead) (member : t ∈ live) (pid : s.pid t ≠ 0)
    : (∃ fuel s', s.mtTaskTerminate fuel t = some s' ∧ s.MovesFamily s' live dead t)
      ↔ OnlyChildren s.pid s.ppid (live.erase t) (t :: dead) t := by
  constructor
  · rintro ⟨fuel, s', returned, moves⟩
    exact moves.onlyChildren view member pid returned
  · intro only
    exact only.movesFamily view member pid

/-- Memory before `mt_init`. -/
def boot : Sched where
  task _ := ⟨0, 0, 0, 0, none, none, .sus⟩
  mtEnabled := false
  tasks := none
  tasksCount := 0
  curTask := none
  fgTask := none
  terminatedTasks := none
  pidCounter := 0

/-- `mt_init`, a task, and below it one task for each of the given parents. -/
def spawned (parents : List Nat) : Option Sched := do
  let s ← boot.mtInit 8 0x1000 0x2000 0x3000
  let s ← s.mtSpawnKtask 8 0x4000 0
  parents.zipIdx.foldlM (fun s p => s.mtSpawnKtask 8 (0x5000 + 0x1000 * p.2) p.1) s

/-- The addresses of `mt_init`'s tasks, the task above and two below it. -/
def sixTasks : List Nat :=
  [0x1000, 0x2000, 0x3000, 0x4000, 0x5000, 0x6000]

/-- A list of tasks with nothing terminated is a view once its links and pids fit. -/
theorem View.of_live {s : Sched} {first : Nat} {rest : List Nat}
    (h : Linked.Chain s.next s.tasks (first :: rest)
      ∧ (first :: rest).IsChain (fun a b => s.prev b = some a) ∧ s.terminatedTasks = none
      ∧ (s.pid first = 0 ∧ s.ppid first = 0) ∧ ∀ p ∈ rest, s.pid p ≠ 0)
    : s.View (first :: rest) [] := by
  obtain ⟨chain, back, empty, idle, others⟩ := h
  refine ⟨⟨chain, back⟩, ⟨empty, .nil⟩, by simp, ⟨first, rfl, idle⟩, ?_⟩
  simpa using others

/-- A task with a child and a grandchild goes with both. -/
theorem terminate_grandchild
    : ∃ s, spawned [3, 4] = some s ∧ ∃ fuel s', s.mtTaskTerminate fuel 0x4000 = some s'
        ∧ s.MovesFamily s' sixTasks [] 0x4000 := by
  have returns : (spawned [3, 4]).isSome = true := by decide +kernel
  obtain ⟨s, result⟩ := Option.isSome_iff_exists.mp returns
  have view : s.View sixTasks [] := by
    refine View.of_live ?_
    revert s
    decide +kernel
  have numbers : ∀ s ∈ spawned [3, 4], sixTasks.map s.pid = [0, 1, 2, 3, 4, 5]
      ∧ sixTasks.map s.ppid = [0, 0, 0, 0, 3, 4] := by
    decide +kernel
  obtain ⟨pids, ppids⟩ := numbers s result
  simp only [sixTasks, List.map_cons, List.map_nil, List.cons.injEq, and_true] at pids ppids
  refine ⟨s, result, (mtTaskTerminate_movesFamily_iff view (by decide) (by simp [pids])).mpr ?_⟩
  have grandchild : OnlyChildren s.pid s.ppid ([0x1000, 0x2000, 0x3000] ++ 0x6000 :: [])
      [0x5000, 0x4000] 0x5000 :=
    .child (by simp [pids, ppids]) (by simp [pids, ppids]) (by simp) (by simp [pids, ppids])
      (.last (by simp [pids, ppids]))
  have child : OnlyChildren s.pid s.ppid ([0x1000, 0x2000, 0x3000] ++ 0x5000 :: [0x6000])
      [0x4000] 0x4000 :=
    .child (by simp [pids, ppids]) (by simp [pids, ppids]) (by simp [pids, ppids])
      (by simp [pids, ppids]) grandchild
  exact child

/-- Of two children of a task, one stays behind. -/
theorem terminate_siblings
    : ∃ s, spawned [3, 3] = some s ∧ s.View sixTasks []
        ∧ ¬ ∃ fuel s', s.mtTaskTerminate fuel 0x4000 = some s'
          ∧ s.MovesFamily s' sixTasks [] 0x4000 := by
  have returns : (spawned [3, 3]).isSome = true := by decide +kernel
  obtain ⟨s, result⟩ := Option.isSome_iff_exists.mp returns
  have view : s.View sixTasks [] := by
    refine View.of_live ?_
    revert s
    decide +kernel
  have children : ∀ s ∈ spawned [3, 3], s.pid 0x4000 ≠ 0 ∧ ((sixTasks.erase 0x4000).filter
      (fun c => s.ppid c = s.pid 0x4000)).length = 2 := by
    decide +kernel
  have two := children s result
  refine ⟨s, result, view, ?_⟩
  rintro ⟨fuel, s', returned, moves⟩
  have one := (moves.onlyChildren view (by decide) two.1 returned).filter_length
  rw [two.2] at one
  exact absurd one (by decide)

end Hydrangea.Sched
