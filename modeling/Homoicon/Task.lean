import Homoicon.Bisection
import Homoicon.Grammar.Reading

/-! Units of work, and the queue that orders them. -/
namespace Homoicon

/-- A unit of work. To step it retires the tree it was started with. -/
structure Task where
  priority : Int
  suspended : Bool := false
  completed : Bool := false
  tree : Option Node := none
  result : Option Node := none

namespace Task

def new (priority : Int) : Task := { priority }

/-- Gives an idle task a tree to work on. -/
def start (task : Task) (tree : Node) : Except Misuse Task :=
  if task.tree.isSome then .error ⟨.taskInUse, tree.location⟩
  else .ok { task with tree := some tree, completed := false, result := none }

def suspend (task : Task) : Task := { task with suspended := true }

def resume (task : Task) : Task := { task with suspended := false }

/-- One unit of work, and whether there is more to do. -/
def step (task : Task) : Bool × Task :=
  if task.suspended then (task.tree.isSome, task)
  else
    match task.tree with
    | some tree => (false, { task with tree := none, completed := true, result := some tree })
    | none => (false, task)

/-- Holds a tree and is not suspended. -/
def runnable (task : Task) : Bool := !task.suspended && task.tree.isSome

end Task

/-- Tasks by descending priority; those of one priority stand in the order they were started. -/
structure Schedule where
  tasks : List Task := []

namespace Schedule

/-- The number of tasks that a new task of the given priority comes after. -/
def position (s : Schedule) (priority : Int) : Nat :=
  Bisection.point (fun task => priority ≤ task.priority) s.tasks

def start (s : Schedule) (priority : Int) (tree : Node) : Schedule :=
  ⟨s.tasks.insertIdx (s.position priority) { priority, tree := some tree }⟩

def startSource (s : Schedule) (priority : Int) (text file : String) :
    Except ParseError Schedule :=
  (parse text file).map (s.start priority)

def modify (s : Schedule) (index : Nat) (f : Task → Task) : Schedule :=
  ⟨s.tasks.modify index f⟩

/-- Steps the first task that can run, and says whether there was one. -/
def step (s : Schedule) : Bool × Schedule :=
  match s.tasks.findIdx? Task.runnable with
  | some index => (true, s.modify index fun task => task.step.2)
  | none => (false, s)

end Schedule
end Homoicon
