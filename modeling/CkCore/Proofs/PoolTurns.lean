import CkCore.Proofs.PoolCount

namespace CkCore.Proofs.PoolTurns
open Lib ThreadPool PoolTasks PoolCount

/-- The workers that have a task to execute. -/
def working (p : ThreadPool) : Nat := p.workers.countP fun x => live x.pc

/-- A worker without a task is counted as idle and starts to wait. -/
def rest (p : ThreadPool) (w : Nat) (x : Worker) : ThreadPool :=
  { p with
    idlThreads := addWord p.idlThreads 1
    polThreads := subWord p.polThreads 1
    taskReady := p.taskReady.enter }.put w { x with pc := .waiting p.retTimeout }

/-- A worker gets the entry and executes its task. -/
def employ (p : ThreadPool) (entry : Task × Nat) (w : Nat) (x : Worker) : ThreadPool :=
  (p.pop entry).put w { x with task := some entry.1, pc := .executing }

section
variable {p p' : ThreadPool} {w : Nat} {x y : Worker} {task : Task}

theorem afterTasks_turn (hcalm : p.exiting = false) (w : Nat) (x : Worker) :
    (p.overworking = true ∧ p.afterTasks w x = p.retire w x) ∨
    (p.overworking = false ∧ p.afterTasks w x = rest p w x) := by
  unfold afterTasks
  rw [if_neg (by rw [hcalm]; decide)]
  cases hover : p.overworking with
  | true => exact Or.inl ⟨rfl, if_pos rfl⟩
  | false => exact Or.inr ⟨rfl, if_neg Bool.false_ne_true⟩

/-- A worker without a task takes the top of the queue, or none is there. -/
theorem fetch_turn (hx : x.task = none) :
    (∃ entry, top p.queue = some entry ∧ p.fetch w x = employ p entry w x) ∨
    (p.queue = [] ∧ p.fetch w x = p.afterTasks w x) := by
  unfold fetch
  split
  case h_1 entry htop => exact Or.inl ⟨entry, htop, rfl⟩
  case h_2 hnone =>
    refine Or.inr ⟨top_none hnone, ?_⟩
    unfold loopHead
    rw [hx]

theorem finish_turn (hcalm : p.exiting = false) (w : Nat) (x : Worker) (task : Task) :
    (p.overworking = true ∧ p.finish w x task =
      { p with executed := p.executed ++ [task] }.retire w { x with task := none }) ∨
    (p.overworking = false ∧ ∃ entry, top p.queue = some entry ∧ p.finish w x task =
      employ { p with executed := p.executed ++ [task] } entry w { x with task := none }) ∨
    (p.overworking = false ∧ p.queue = [] ∧ p.finish w x task =
      rest { p with executed := p.executed ++ [task] } w { x with task := none }) := by
  have hrecord : { p with executed := p.executed ++ [task] }.overworking = p.overworking := rfl
  have hsettle := afterTasks_turn (p := { p with executed := p.executed ++ [task] }) hcalm w
    { x with task := none }
  have hfetch := fetch_turn (p := { p with executed := p.executed ++ [task] }) (w := w)
    (x := { x with task := none }) rfl
  rw [hrecord] at hsettle
  unfold finish
  dsimp only
  rw [hrecord]
  cases hover : p.overworking with
  | true =>
    rw [if_pos rfl]
    rcases hsettle with ⟨_, hs⟩ | ⟨hno, _⟩
    · exact Or.inl ⟨rfl, hs⟩
    · rw [hover] at hno
      cases hno
  | false =>
    rw [if_neg Bool.false_ne_true]
    rcases hfetch with ⟨entry, htop, hf⟩ | ⟨hempty, hf⟩
    · exact Or.inr (Or.inl ⟨rfl, entry, htop, hf⟩)
    · rw [hf]
      rcases hsettle with ⟨hyes, _⟩ | ⟨_, hs⟩
      · rw [hover] at hyes
        cases hyes
      · exact Or.inr (Or.inr ⟨rfl, hempty, hs⟩)

/-- A woken worker takes the top of the queue without looking at the threads. -/
theorem resume_turn (hx : x.task = none) (w : Nat) :
    (∃ entry, top p.queue = some entry ∧ p.resume w x false =
      employ { p with
        polThreads := addWord p.polThreads 1, promised := p.promised - 1 } entry w x) ∨
    (p.queue = [] ∧ p.resume w x false = { p with
      polThreads := addWord p.polThreads 1, promised := p.promised - 1 }.afterTasks w x) :=
  fetch_turn (p := { p with
    polThreads := addWord p.polThreads 1, promised := p.promised - 1 }) hx

theorem afterTasks_moved (p : ThreadPool) (w : Nat) (x : Worker) :
    ∃ y, Moved p (p.afterTasks w x) w y ∧ y.running = x.running ∧ live y.pc = false := by
  unfold afterTasks
  split
  · exact ⟨{ x with pc := .returned }, ⟨rfl, rfl, rfl, rfl, rfl⟩, rfl, rfl⟩
  · split
    · exact ⟨{ x with pc := .returned }, ⟨rfl, rfl, rfl, rfl, rfl⟩, rfl, rfl⟩
    · exact ⟨{ x with pc := .waiting p.retTimeout }, ⟨rfl, rfl, rfl, rfl, rfl⟩, rfl, rfl⟩

theorem loopHead_moved (p : ThreadPool) (w : Nat) (x : Worker) :
    ∃ y, Moved p (p.loopHead w x) w y ∧ y.running = x.running ∧ y.pc ≠ .starting := by
  unfold loopHead
  split
  · exact ⟨{ x with pc := .executing }, ⟨rfl, rfl, rfl, rfl, rfl⟩, rfl, fun hn => nomatch hn⟩
  · obtain ⟨y, hm, hy, hlive⟩ := afterTasks_moved p w x
    refine ⟨y, hm, hy, fun hn => ?_⟩
    rw [hn] at hlive
    cases hlive

theorem fetch_moved (p : ThreadPool) (w : Nat) (x : Worker) :
    ∃ y, Moved p (p.fetch w x) w y ∧ y.running = x.running ∧ y.pc ≠ .starting := by
  unfold fetch
  split
  · next entry _ =>
    obtain ⟨y, hm, hy⟩ := loopHead_moved (p.pop entry) w { x with task := some entry.1 }
    exact ⟨y, hm.frame rfl rfl rfl rfl rfl, hy⟩
  · exact loopHead_moved p w x

end
end CkCore.Proofs.PoolTurns
