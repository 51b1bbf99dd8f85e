import Homoicon.Task
import Mathlib.Data.List.Basic

/-! A schedule against a ledger, which lists the tasks in the order they were started. -/
namespace Homoicon

namespace Task

inductive Operation
  | start (tree : Node)
  | step
  | suspend
  | resume

/-- A task after an operation. One that fails leaves the task as it was. -/
def perform (task : Task) : Operation → Task
  | .start tree => (task.start tree).toOption.getD task
  | .step => task.step.2
  | .suspend => task.suspend
  | .resume => task.resume

/-- A task whose tree has become its result. -/
def retire (task : Task) : Task :=
  { task with tree := none, completed := true, result := task.tree }

/-- A task that holds a tree is not completed, and one is completed if and only if it has a result.
-/
structure Coherent (task : Task) : Prop where
  not_completed : task.tree.isSome = true → task.completed = false
  completed_iff : task.completed = true ↔ task.result.isSome = true

variable {task : Task}

theorem runnable_iff : task.runnable = true ↔ task.suspended = false ∧ task.tree.isSome = true := by
  simp [runnable]

theorem runnable_eq_false_iff :
    task.runnable = false ↔ task.suspended = true ∨ task.tree = none := by
  simp [runnable, imp_iff_not_or]

theorem runnable_retire : task.retire.runnable = false := runnable_eq_false_iff.mpr (.inr rfl)

theorem start_of_holding (tree : Node) (h : task.tree.isSome = true) :
    task.start tree = .error ⟨.taskInUse, tree.location⟩ := if_pos h

theorem start_of_idle (tree : Node) (h : task.tree = none) :
    task.start tree = .ok { task with tree := some tree, completed := false, result := none } :=
  if_neg (by rw [h]; exact Bool.false_ne_true)

theorem start_fails_iff (task : Task) (tree : Node) :
    (∃ misuse, task.start tree = .error misuse) ↔ task.tree.isSome = true := by
  refine ⟨fun ⟨misuse, hmisuse⟩ => ?_, fun h => ⟨_, start_of_holding tree h⟩⟩
  cases htree : task.tree with
  | some held => rfl
  | none =>
    rw [start_of_idle tree htree] at hmisuse
    cases hmisuse

theorem step_of_runnable (h : task.runnable = true) : task.step = (false, task.retire) := by
  obtain ⟨hsuspended, htree⟩ := runnable_iff.mp h
  obtain ⟨tree, htree⟩ := Option.isSome_iff_exists.mp htree
  unfold step retire
  rw [hsuspended, htree]
  rfl

theorem step_of_not_runnable (h : task.runnable = false) : task.step.2 = task := by
  unfold step
  rcases runnable_eq_false_iff.mp h with hsuspended | htree
  · rw [hsuspended]
    rfl
  · rw [htree]
    split <;> rfl

/-- All that an operation can make of a task: a free one is given a tree, one that can run retires
its tree, and whether a task is suspended has no bearing on the rest. -/
theorem perform_cases (task : Task) (operation : Operation) :
    task.perform operation = task ∨
    (∃ tree, task.tree = none ∧
      task.perform operation =
        { task with tree := some tree, completed := false, result := none }) ∨
    (task.runnable = true ∧ task.perform operation = task.retire) ∨
    ∃ suspended, task.perform operation = { task with suspended } := by
  cases operation with
  | start tree =>
    cases htree : task.tree with
    | none => exact .inr (.inl ⟨tree, rfl, by rw [perform, start_of_idle tree htree]; rfl⟩)
    | some held =>
      exact .inl (by rw [perform, start_of_holding tree (by rw [htree]; rfl)]; rfl)
  | step =>
    cases hrunnable : task.runnable with
    | true => exact .inr (.inr (.inl ⟨rfl, by rw [perform, step_of_runnable hrunnable]⟩))
    | false => exact .inl (step_of_not_runnable hrunnable)
  | suspend => exact .inr (.inr (.inr ⟨true, rfl⟩))
  | resume => exact .inr (.inr (.inr ⟨false, rfl⟩))

theorem priority_perform (task : Task) (operation : Operation) :
    (task.perform operation).priority = task.priority := by
  rcases perform_cases task operation with h | ⟨tree, -, h⟩ | ⟨-, h⟩ | ⟨suspended, h⟩ <;> rw [h]
  rfl

theorem Coherent.retire (htree : task.tree.isSome = true) : task.retire.Coherent :=
  ⟨fun h => absurd h Bool.false_ne_true, iff_of_true rfl htree⟩

theorem Coherent.perform (h : task.Coherent) (operation : Operation) :
    (task.perform operation).Coherent := by
  rcases perform_cases task operation with
    heq | ⟨tree, -, heq⟩ | ⟨hrunnable, heq⟩ | ⟨suspended, heq⟩
  · rwa [heq]
  · rw [heq]
    exact ⟨fun _ => rfl, iff_of_false Bool.false_ne_true Bool.false_ne_true⟩
  · rw [heq]
    exact .retire (runnable_iff.mp hrunnable).2
  · rw [heq]
    exact ⟨h.not_completed, h.completed_iff⟩

theorem priority_foldl_perform (task : Task) (operations : List Task.Operation) :
    (operations.foldl perform task).priority = task.priority := by
  induction operations generalizing task with
  | nil => rfl
  | cons operation operations ih => exact (ih _).trans (priority_perform task operation)

theorem Coherent.foldl_perform (h : task.Coherent) (operations : List Task.Operation) :
    (operations.foldl Task.perform task).Coherent := by
  induction operations generalizing task with
  | nil => exact h
  | cons operation operations ih => exact ih (h.perform operation)

end Task

namespace Schedule

/-- Uses of a schedule. Who starts a task may do something to it before the schedule is used again.
-/
inductive Event
  | start (priority : Int) (tree : Node) (operations : List Task.Operation)
  | startSource (priority : Int) (text file : String) (operations : List Task.Operation)
  | step

/-- A schedule after it has been used. Operations are done to the task just started. -/
def handle (s : Schedule) : Event → Schedule
  | .start priority tree operations =>
    (s.start priority tree).modify (s.position priority) (operations.foldl Task.perform ·)
  | .startSource priority text file operations =>
    match s.startSource priority text file with
    | .ok started => started.modify (s.position priority) (operations.foldl Task.perform ·)
    | .error _ => s
  | .step => s.step.2

/-- Retires the first task with a property. -/
def retireFirst (p : Task → Bool) (tasks : List Task) : List Task :=
  match tasks.findIdx? p with
  | some index => tasks.modify index Task.retire
  | none => tasks

/-- A ledger after an event: a task that is started is the last, and a step retires, of the tasks
that can run and have the highest priority of all that can, the one that was started first. -/
def record (started : List Task) : Event → List Task
  | .start priority tree operations =>
    started ++ [operations.foldl Task.perform { priority, tree := some tree }]
  | .startSource priority text file operations =>
    match parse text file with
    | .ok tree => started ++ [operations.foldl Task.perform { priority, tree := some tree }]
    | .error _ => started
  | .step =>
    match ((started.filter Task.runnable).map Task.priority).max? with
    | some top => retireFirst (fun task => task.runnable && task.priority == top) started
    | none => started

/-- A schedule keeps the tasks of a ledger: those of a higher priority come first, and those of one
priority stand in the order they were started. -/
structure Follows (started : List Task) (s : Schedule) : Prop where
  descending : s.tasks.Pairwise fun a b => b.priority ≤ a.priority
  equals : ∀ priority : Int, s.tasks.filter (·.priority == priority) =
    started.filter (·.priority == priority)
  coherent : ∀ task ∈ s.tasks, task.Coherent

variable {s : Schedule} {started front back tasks : List Task}
  {task replaced : Task} {p : Task → Bool}

theorem exists_first (p : Task → Bool) (tasks : List Task) :
    (∀ task ∈ tasks, p task = false) ∨ ∃ front task back, tasks = front ++ task :: back ∧
      (∀ other ∈ front, p other = false) ∧ p task = true := by
  cases h : tasks.find? p with
  | none => exact .inl fun task htask => Bool.eq_false_iff.mpr (List.find?_eq_none.mp h task htask)
  | some task =>
    obtain ⟨hp, front, back, rfl, hfront⟩ := List.find?_eq_some_iff_append.mp h
    exact .inr ⟨front, task, back, rfl, fun other hother => by simpa using hfront other hother, hp⟩

theorem findIdx?_first (hfront : ∀ other ∈ front, p other = false) (htask : p task = true) :
    (front ++ task :: back).findIdx? p = some front.length := by
  rw [List.findIdx?_append, List.findIdx?_eq_none_iff.mpr hfront, List.findIdx?_cons, htask]
  simp

theorem modify_append (front back : List Task) (task : Task) (f : Task → Task) :
    (front ++ task :: back).modify front.length f = front ++ f task :: back := by
  simp [List.modify_eq_take_cons_drop]

theorem retireFirst_append (hfront : ∀ other ∈ front, p other = false) (htask : p task = true) :
    retireFirst p (front ++ task :: back) = front ++ task.retire :: back := by
  unfold retireFirst
  rw [findIdx?_first hfront htask]
  exact modify_append front back task Task.retire

theorem step_of_idle (h : ∀ task ∈ s.tasks, task.runnable = false) : s.step = (false, s) := by
  unfold step
  rw [List.findIdx?_eq_none_iff.mpr h]

theorem step_of_first (hs : s.tasks = front ++ task :: back)
    (hfront : ∀ other ∈ front, other.runnable = false) (htask : task.runnable = true) :
    s.step = (true, ⟨front ++ task.retire :: back⟩) := by
  unfold step modify
  rw [hs, findIdx?_first hfront htask]
  dsimp only
  rw [modify_append, Task.step_of_runnable htask]

section Priority
variable {priority : Int}

theorem filter_replace (hpriority : replaced.priority = task.priority)
    (hne : task.priority ≠ priority) :
    (front ++ replaced :: back).filter (·.priority == priority) =
      (front ++ task :: back).filter (·.priority == priority) := by
  simp [List.filter_append, hpriority, hne]

theorem pairwise_replace (hpriority : replaced.priority = task.priority)
    (h : (front ++ task :: back).Pairwise fun a b => b.priority ≤ a.priority) :
    (front ++ replaced :: back).Pairwise fun a b => b.priority ≤ a.priority := by
  have hmap : (front ++ replaced :: back).map Task.priority =
      (front ++ task :: back).map Task.priority := by simp [hpriority]
  have hpairwise (tasks : List Task) : (tasks.map Task.priority).Pairwise (fun a b => b ≤ a) ↔
      tasks.Pairwise fun a b => b.priority ≤ a.priority := List.pairwise_map
  rwa [← hpairwise, hmap, hpairwise]

/-- Among the tasks of one priority, the first that can run is the first that can run of them. -/
theorem filter_retireFirst (hfront : ∀ other ∈ front, p other = false)
    (hp : ∀ other, other.priority = task.priority → p other = other.runnable)
    (htask : p task = true) (priority : Int) :
    (front ++ task.retire :: back).filter (·.priority == priority) =
      if task.priority = priority then
        retireFirst Task.runnable ((front ++ task :: back).filter (·.priority == priority))
      else (front ++ task :: back).filter (·.priority == priority) := by
  split
  · next heq =>
    subst heq
    have hfront' : ∀ other ∈ front.filter (·.priority == task.priority),
        other.runnable = false := by
      intro other hother
      obtain ⟨hother, heq⟩ := List.mem_filter.mp hother
      rw [← hp other (beq_iff_eq.mp heq), hfront other hother]
    have hkept : ∀ task' : Task, task'.priority = task.priority →
        (front ++ task' :: back).filter (·.priority == task.priority) =
          front.filter (·.priority == task.priority) ++
            task' :: back.filter (·.priority == task.priority) := fun task' heq => by
      simp [List.filter_append, heq]
    rw [hkept task rfl, hkept task.retire rfl,
      retireFirst_append hfront' ((hp task rfl).symm.trans htask)]
  · next hne => exact filter_replace rfl hne

end Priority

namespace Follows
variable (h : Follows started s)
include h

theorem mem_iff : task ∈ s.tasks ↔ task ∈ started := by
  have hfilter := h.equals task.priority
  have hmem (tasks : List Task) :
      task ∈ tasks.filter (·.priority == task.priority) ↔ task ∈ tasks := by simp
  rw [← hmem s.tasks, hfilter, hmem started]

/-- A new task comes after those of no smaller priority, and so after all of its own. -/
theorem start (new : Task) (hnew : new.Coherent) :
    ∃ front back, s.tasks = front ++ back ∧ s.position new.priority = front.length ∧
      Follows (started ++ [new]) ⟨front ++ new :: back⟩ := by
  have hbefore : s.tasks.Pairwise fun a b => decide (new.priority ≤ b.priority) = true →
      decide (new.priority ≤ a.priority) = true := h.descending.imp fun hle hb =>
    decide_eq_true (Int.le_trans (of_decide_eq_true hb) hle)
  obtain ⟨front, back, hs, hposition, hfront, hback⟩ := Bisection.exists_point _ hbefore
  replace hfront : ∀ task ∈ front, new.priority ≤ task.priority := fun task htask =>
    of_decide_eq_true (hfront task htask)
  replace hback : ∀ task ∈ back, task.priority < new.priority := fun task htask =>
    Int.not_le.mp (of_decide_eq_false (hback task htask))
  refine ⟨front, back, hs, hposition, ?_, fun priority => ?_, ?_⟩
  · have hdescending := h.descending
    rw [hs] at hdescending
    obtain ⟨hfront', hback', hacross⟩ := List.pairwise_append.mp hdescending
    exact List.pairwise_append.mpr ⟨hfront',
      List.pairwise_cons.mpr ⟨fun task htask => Int.le_of_lt (hback task htask), hback'⟩,
      fun task htask => List.forall_mem_cons.mpr ⟨hfront task htask, hacross task htask⟩⟩
  · have hequals := h.equals priority
    rw [hs, List.filter_append] at hequals
    rw [List.filter_append, List.filter_append, ← hequals, List.filter_cons, List.filter_cons]
    split
    · next heq =>
      have hnone : back.filter (·.priority == priority) = [] :=
        List.filter_eq_nil_iff.mpr fun task htask hpriority => Int.ne_of_lt (hback task htask)
          ((beq_iff_eq.mp hpriority).trans (beq_iff_eq.mp heq).symm)
      rw [hnone, List.append_nil, List.filter_nil]
    · rw [List.filter_nil, List.append_nil]
  · have hcoherent := h.coherent
    rw [hs] at hcoherent
    obtain ⟨hfront, hback⟩ := List.forall_mem_append.mp hcoherent
    exact List.forall_mem_append.mpr ⟨hfront, List.forall_mem_cons.mpr ⟨hnew, hback⟩⟩

/-- The first task that can run has the highest priority of all that can. -/
theorem max?_eq (hs : s.tasks = front ++ task :: back)
    (hfront : ∀ other ∈ front, other.runnable = false) (htask : task.runnable = true) :
    ((started.filter Task.runnable).map Task.priority).max? = some task.priority := by
  rw [List.max?_eq_some_iff]
  constructor
  · refine List.mem_map_of_mem (List.mem_filter.mpr ⟨h.mem_iff.mp ?_, htask⟩)
    rw [hs]
    exact List.mem_append_right _ List.mem_cons_self
  · refine List.forall_mem_map.mpr fun other hother => ?_
    obtain ⟨hother, hrunnable⟩ := List.mem_filter.mp hother
    have hdescending := h.descending
    rw [← h.mem_iff, hs, List.mem_append, List.mem_cons] at hother
    rw [hs] at hdescending
    rcases hother with hother | rfl | hother
    · rw [hfront other hother] at hrunnable
      cases hrunnable
    · exact Int.le_refl _
    · exact (List.pairwise_cons.mp (List.pairwise_append.mp hdescending).2.1).1 other hother

theorem step : Follows (record started .step) s.step.2 := by
  rcases exists_first Task.runnable s.tasks with hidle | ⟨front, task, back, hs, hfront, htask⟩
  · rw [step_of_idle hidle]
    have hnone : started.filter Task.runnable = [] := List.filter_eq_nil_iff.mpr fun task htask =>
      Bool.eq_false_iff.mp (hidle task (h.mem_iff.mpr htask))
    rw [record, hnone]
    exact h
  · let p := fun other : Task => other.runnable && other.priority == task.priority
    have hmem : task ∈ started := h.mem_iff.mp (hs ▸ List.mem_append_right _ List.mem_cons_self)
    have htask' : p task = true := by simp [p, htask]
    rw [step_of_first hs hfront htask, record, h.max?_eq hs hfront htask]
    rcases exists_first p started with hnone | ⟨front', task', back', hstarted, hfront', hp⟩
    · rw [hnone task hmem] at htask'
      cases htask'
    · obtain ⟨hrunnable', hpriority⟩ : task'.runnable = true ∧ task'.priority = task.priority := by
        simpa [p] using hp
      have hretired : retireFirst p started = front' ++ task'.retire :: back' := by
        rw [hstarted, retireFirst_append hfront' hp]
      change Follows (retireFirst p started) _
      rw [hretired]
      refine ⟨?_, fun priority => ?_, ?_⟩
      · have hdescending := h.descending
        rw [hs] at hdescending
        exact pairwise_replace (show task.retire.priority = task.priority from rfl) hdescending
      · -- in both lists the first of the task's priority that can run is retired
        have hequals := h.equals priority
        rw [hs, hstarted] at hequals
        rw [filter_retireFirst hfront (fun _ _ => rfl) htask, filter_retireFirst hfront'
          (fun other hother => by simp [p, hother, hpriority]) hp, hequals, hpriority]
      · have hcoherent := h.coherent
        rw [hs] at hcoherent
        obtain ⟨hfront, hback⟩ := List.forall_mem_append.mp hcoherent
        exact List.forall_mem_append.mpr ⟨hfront, List.forall_mem_cons.mpr
          ⟨.retire (Task.runnable_iff.mp htask).2, (List.forall_mem_cons.mp hback).2⟩⟩

/-- A task with what was done to it since it was started. -/
theorem begin (priority : Int) (tree : Node) (operations : List Task.Operation) :
    Follows (started ++ [operations.foldl Task.perform { priority, tree := some tree }])
      ((s.start priority tree).modify (s.position priority)
        (operations.foldl Task.perform ·)) := by
  let new := operations.foldl Task.perform { priority, tree := some tree }
  have hpriority : new.priority = priority := Task.priority_foldl_perform _ operations
  have hbegun : Task.Coherent { priority, tree := some tree } :=
    ⟨fun _ => rfl, iff_of_false Bool.false_ne_true Bool.false_ne_true⟩
  have hnew : new.Coherent := hbegun.foldl_perform operations
  obtain ⟨front, back, hs, hposition, hfollows⟩ := h.start new hnew
  rw [hpriority] at hposition
  have htasks : ((s.start priority tree).modify (s.position priority)
      (operations.foldl Task.perform ·)).tasks = front ++ new :: back := by
    unfold Schedule.start modify
    dsimp only
    rw [hposition, hs, Bisection.insertIdx_append, modify_append]
  rw [← htasks] at hfollows
  exact hfollows

/-- A schedule goes on to keep the tasks of the ledger, whatever is done with it. -/
theorem handle (event : Event) : Follows (record started event) (s.handle event) := by
  cases event with
  | start priority tree operations => exact h.begin priority tree operations
  | startSource priority text file operations =>
    rw [record, Schedule.handle, startSource]
    cases parse text file with
    | ok tree => exact h.begin priority tree operations
    | error failure => exact h
  | step => exact h.step

theorem foldl_handle (events : List Event) :
    Follows (events.foldl record started) (events.foldl Schedule.handle s) := by
  induction events generalizing started s with
  | nil => exact h
  | cons event events ih => exact ih (h.handle event)

end Follows

theorem follows_nil : Follows [] {} := ⟨.nil, fun _ => rfl, List.forall_mem_nil _⟩

end Schedule
end Homoicon
