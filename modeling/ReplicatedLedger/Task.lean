/-! # Background tasks

A task runs at once, and, if it has an interval, again after each interval, until it is stopped. A task
without an interval ends by itself after its only run (`runs_pass`, `pass_of_isFinished`). -/

namespace ReplicatedLedger

/-- A task, and how often it ran. -/
structure Task where
  name : String
  /-- Milliseconds between runs; none for a task that runs once. -/
  interval : Option Nat
  runs : Nat
  stopped : Bool
  deriving DecidableEq

namespace Task

/-- Starts a task, which runs at once. -/
def start (name : String) (interval : Option Nat) : Task := ⟨name, interval, 1, false⟩

/-- Whether the task will not run again. -/
def isFinished (t : Task) : Bool := t.stopped || t.interval.isNone

/-- One interval passes. -/
def tick (t : Task) : Task := if t.isFinished then t else { t with runs := t.runs + 1 }

/-- So many intervals pass. -/
def pass : Nat → Task → Task
  | 0, t => t
  | n + 1, t => pass n t.tick

/-- Stops the task; stopping it again changes nothing. -/
def stop (t : Task) : Task := { t with stopped := true }

theorem tick_of_isFinished {t : Task} (h : t.isFinished = true) : t.tick = t := if_pos h

/-- A task that is stopped, or that has no interval, stays as it is, however much time passes. -/
theorem pass_of_isFinished {t : Task} (h : t.isFinished = true) (n : Nat) : pass n t = t := by
  induction n with
  | zero => rfl
  | succ n ih => rw [pass, tick_of_isFinished h, ih]

/-- Any other task runs once in each interval. -/
theorem runs_pass {t : Task} (h : t.isFinished = false) (n : Nat) : (pass n t).runs = t.runs + n := by
  induction n generalizing t with
  | zero => rfl
  | succ n ih =>
    have htick : t.tick = { t with runs := t.runs + 1 } := if_neg (Bool.eq_false_iff.mp h)
    have hlater : (pass n { t with runs := t.runs + 1 }).runs = t.runs + 1 + n := ih h
    rw [pass, htick, hlater, Nat.add_right_comm, Nat.add_assoc]

end Task

end ReplicatedLedger
