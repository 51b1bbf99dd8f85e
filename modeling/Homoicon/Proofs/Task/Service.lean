import Homoicon.Proofs.Task.Ledger

/-! What a schedule does over any run, and how stepping it retires all tasks that can run. -/
namespace Homoicon

/-- What is left of a task when all that can run have been retired. -/
def Task.settled (task : Task) : Task := if task.runnable then task.retire else task

theorem Task.runnable_settled (task : Task) : task.settled.runnable = false := by
  unfold settled
  split
  · exact runnable_retire
  · next h => exact Bool.eq_false_iff.mpr h

namespace Schedule

def steps : Nat → Schedule → Schedule
  | 0, s => s
  | count + 1, s => steps count s.step.2

variable {s : Schedule} {front back : List Task} {task : Task} {n : Nat}

/-- As many steps as there are tasks that can run at the front retire these. -/
theorem steps_append (tasks front back : List Task)
    (hdone : ∀ task ∈ tasks, task.runnable = false) :
    steps (front.countP Task.runnable) ⟨tasks ++ front ++ back⟩ =
      ⟨tasks ++ front.map Task.settled ++ back⟩ := by
  induction front generalizing tasks with
  | nil => rfl
  | cons task front ih =>
    have hlater := ih (tasks ++ [task.settled])
      (List.forall_mem_append.mpr ⟨hdone, List.forall_mem_singleton.mpr task.runnable_settled⟩)
    simp only [List.append_assoc, List.nil_append, List.cons_append] at hlater
    simp only [List.map_cons, List.append_assoc, List.cons_append]
    rw [← hlater]
    cases htask : task.runnable with
    | true =>
      rw [List.countP_cons_of_pos htask, steps, Task.settled, if_pos htask,
        step_of_first rfl hdone htask]
    | false =>
      rw [List.countP_cons_of_neg (Bool.eq_false_iff.mp htask), Task.settled,
        if_neg (Bool.eq_false_iff.mp htask)]

/-- When those before it have been retired, a task that can run is retired by the next step. -/
theorem step_steps (hs : s.tasks = front ++ task :: back) (htask : task.runnable = true) :
    (steps (front.countP Task.runnable) s).step =
      (true, ⟨front.map Task.settled ++ task.retire :: back⟩) := by
  obtain ⟨tasks⟩ := s
  obtain rfl : tasks = front ++ task :: back := hs
  have hfront := steps_append [] front (task :: back) (List.forall_mem_nil _)
  rw [List.nil_append, List.nil_append] at hfront
  rw [hfront]
  exact step_of_first rfl (List.forall_mem_map.mpr fun other _ => other.runnable_settled) htask

theorem steps_of_idle (h : ∀ task ∈ s.tasks, task.runnable = false) : steps n s = s := by
  induction n with
  | zero => rfl
  | succ n ih => rwa [steps, step_of_idle h]

theorem steps_add (m n : Nat) : steps (m + n) s = steps n (steps m s) := by
  induction m generalizing s with
  | zero => rw [Nat.zero_add, steps]
  | succ m ih => rw [Nat.succ_add, steps, ih, steps]

theorem steps_of_countP_le (h : s.tasks.countP Task.runnable ≤ n) :
    steps n s = ⟨s.tasks.map Task.settled⟩ := by
  have hall := steps_append [] s.tasks [] (List.forall_mem_nil _)
  rw [List.nil_append, List.append_nil, List.nil_append, List.append_nil] at hall
  have hidle : ∀ task ∈ s.tasks.map Task.settled, task.runnable = false :=
    List.forall_mem_map.mpr fun task _ => task.runnable_settled
  obtain ⟨more, rfl⟩ := Nat.exists_eq_add_of_le h
  rw [steps_add]
  exact (congrArg (steps more) hall).trans (steps_of_idle hidle)

theorem exists_countP_eq {tasks : List Task} (h : n < tasks.countP Task.runnable) :
    ∃ front task back, tasks = front ++ task :: back ∧ task.runnable = true ∧
      front.countP Task.runnable = n := by
  induction tasks generalizing n with
  | nil => cases h
  | cons task tasks ih =>
    cases htask : task.runnable with
    | true =>
      rw [List.countP_cons_of_pos htask] at h
      cases n with
      | zero => exact ⟨[], task, tasks, rfl, htask, rfl⟩
      | succ n =>
        obtain ⟨front, other, back, rfl, hother, hcount⟩ := ih (Nat.lt_of_succ_lt_succ h)
        exact ⟨task :: front, other, back, rfl, hother,
          by rw [List.countP_cons_of_pos htask, hcount]⟩
    | false =>
      have hneg := Bool.eq_false_iff.mp htask
      rw [List.countP_cons_of_neg hneg] at h
      obtain ⟨front, other, back, rfl, hother, hcount⟩ := ih h
      exact ⟨task :: front, other, back, rfl, hother, by rw [List.countP_cons_of_neg hneg, hcount]⟩

/-- A step answers that there was something to do as often as there are tasks that can run. -/
theorem step_steps_fst (n : Nat) :
    (steps n s).step.1 = decide (n < s.tasks.countP Task.runnable) := by
  by_cases h : n < s.tasks.countP Task.runnable
  · obtain ⟨front, task, back, hs, htask, rfl⟩ := exists_countP_eq h
    rw [step_steps hs htask, decide_eq_true h]
  · have hidle : ∀ task ∈ s.tasks.map Task.settled, task.runnable = false :=
      List.forall_mem_map.mpr fun task _ => task.runnable_settled
    rw [steps_of_countP_le (Nat.le_of_not_lt h), step_of_idle hidle, decide_eq_false h]

/-- A schedule serves its tasks when a step retires the first that holds a tree and is not suspended
and leaves all others alone, when nothing is done where there is none, and when steps go through the
tasks from first to last. -/
structure Serves (s : Schedule) : Prop where
  idle : (∀ task ∈ s.tasks, task.tree = none ∨ task.suspended = true) → s.step = (false, s)
  first : ∀ front task tree back, s.tasks = front ++ task :: back →
    (∀ other ∈ front, other.tree = none ∨ other.suspended = true) →
    task.tree = some tree → task.suspended = false →
    s.step =
      (true, ⟨front ++ { task with tree := none, completed := true, result := some tree } :: back⟩)
  answers : ∀ n, (steps n s).step.1 = decide (n < s.tasks.countP Task.runnable)
  turns : ∀ front task tree back, s.tasks = front ++ task :: back →
    task.tree = some tree → task.suspended = false →
    (steps (front.countP Task.runnable) s).step =
      (true, ⟨front.map Task.settled ++
        { task with tree := none, completed := true, result := some tree } :: back⟩)
  settles : ∀ n, s.tasks.countP Task.runnable ≤ n → steps n s = ⟨s.tasks.map Task.settled⟩

theorem not_runnable_of_idle {tasks : List Task}
    (h : ∀ task ∈ tasks, task.tree = none ∨ task.suspended = true) :
    ∀ task ∈ tasks, task.runnable = false := fun task htask =>
  Task.runnable_eq_false_iff.mpr (h task htask).symm

theorem serves (s : Schedule) : s.Serves where
  idle h := step_of_idle (not_runnable_of_idle h)
  first front task tree back hs hfront htree hsuspended := by
    rw [← htree]
    exact step_of_first hs (not_runnable_of_idle hfront)
      (Task.runnable_iff.mpr ⟨hsuspended, Option.isSome_of_eq_some htree⟩)
  answers := step_steps_fst
  turns front task tree back hs htree hsuspended := by
    rw [← htree]
    exact step_steps hs (Task.runnable_iff.mpr ⟨hsuspended, Option.isSome_of_eq_some htree⟩)
  settles _ := steps_of_countP_le

/-- Whatever has been done with a schedule, it keeps its tasks by descending priority and then in
the order they were started; each task is completed when it has a result and not when it holds a
tree; to start one fails if and only if it holds a tree. What fails changes nothing, and steps go
through the tasks. -/
theorem run_serves (events : List Event) :
    let s := events.foldl handle {}
    Follows (events.foldl record []) s ∧
    (∀ (task : Task) (tree : Node),
      ((∃ misuse, task.start tree = .error misuse) ↔ task.tree.isSome = true) ∧
      ∀ misuse, task.start tree = .error misuse →
        misuse = ⟨.taskInUse, tree.location⟩ ∧ task.perform (.start tree) = task) ∧
    (∀ priority text file operations failure, s.startSource priority text file = .error failure →
      s.handle (.startSource priority text file operations) = s) ∧
    s.Serves := by
  refine ⟨follows_nil.foldl_handle events, fun task tree => ⟨task.start_fails_iff tree, ?_⟩,
    fun priority text file operations failure h => ?_, serves _⟩
  · intro misuse hmisuse
    have hholding := (task.start_fails_iff tree).mp ⟨misuse, hmisuse⟩
    rw [Task.perform, hmisuse]
    rw [Task.start_of_holding tree hholding] at hmisuse
    exact ⟨(Except.error.inj hmisuse).symm, rfl⟩
  · rw [handle, h]

/-- The task of high priority is suspended, and the one after it was, but has been resumed. So this
one is stepped first, and then those of low priority in turn. Nothing is left to do after that, and
a text that cannot be parsed starts no task. -/
theorem run_serves_low_priority :
    let a := Node.name "a" .unknown
    let b := Node.name "b" .unknown
    let waiting : Task := { priority := 5, suspended := true, tree := some b }
    let served : Task := { priority := 3, completed := true, result := some b }
    let s := [.start 1 a [], .start 5 b [.step, .start b, .suspend], .start 1 b [],
      .start 3 b [.suspend, .step, .resume]].foldl handle {}
    s.step = (true, ⟨[waiting, served, { priority := 1, tree := some a },
      { priority := 1, tree := some b }]⟩) ∧
    (steps 1 s).step = (true, ⟨[waiting, served,
      { priority := 1, completed := true, result := some a },
      { priority := 1, tree := some b }]⟩) ∧
    (steps 2 s).step = (true, ⟨[waiting, served,
      { priority := 1, completed := true, result := some a },
      { priority := 1, completed := true, result := some b }]⟩) ∧
    (steps 3 s).step.1 = false ∧ waiting.perform (.start a) = waiting ∧
    s.handle (.startSource 9 "(" "main" []) = s := by
  intro a b waiting served s
  let resumed : Task := { priority := 3, tree := some b }
  have hs : s.tasks = [waiting, resumed, { priority := 1, tree := some a },
      { priority := 1, tree := some b }] := by
    simp [s, waiting, resumed, handle, start, modify, position, Bisection.point, Bisection.narrow,
      Task.perform, Task.step, Task.start, Task.suspend, Task.resume, Except.toOption]
  obtain ⟨-, hstart, hsource, hserves⟩ := run_serves [.start 1 a [],
    .start 5 b [.step, .start b, .suspend], .start 1 b [], .start 3 b [.suspend, .step, .resume]]
  refine ⟨hserves.first [waiting] resumed b _ hs (List.forall_mem_singleton.mpr (.inr rfl)) rfl rfl,
    hserves.turns [waiting, resumed] _ a _ hs rfl rfl,
    hserves.turns [waiting, resumed, { priority := 1, tree := some a }] _ b [] hs rfl rfl,
    (hserves.answers 3).trans (decide_eq_false ?_),
    ((hstart waiting a).2 _ rfl).2, ?_⟩
  · rw [hs]
    decide
  · have hfails : (parse "(" "main").isOk = false := by decide +kernel
    cases hparse : parse "(" "main" with
    | ok tree =>
      rw [hparse] at hfails
      cases hfails
    | error failure => exact hsource 9 "(" "main" [] failure (by rw [startSource, hparse]; rfl)

end Schedule
end Homoicon
