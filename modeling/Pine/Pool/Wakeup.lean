import Pine.Pool.ThreadPool

/-!
# Pool — Wakeup

No wakeup is lost. While a worker is blocked, every queued task is
covered by a worker that has been notified and has not looked at the
queue since (`Covered`). A task that is stolen from the worker notified
for it leaves the queue along with its claim, and a worker that blocks
has seen an empty queue. Once the destructor has run `notify_all`, no
worker is blocked again.
-/

namespace Pine

open Transition

namespace ThreadPool

/-- With a worker blocked, the queue is no longer than the number of
workers already notified. -/
def Covered (p : ThreadPool) : Prop :=
  .blocked ∈ p.threads → p.tasks.length ≤ p.threads.count .notified

/-- No worker is blocked and none will block. -/
def Awake (p : ThreadPool) : Prop := p.stop = true ∧ .blocked ∉ p.threads

/-- A worker that was not blocked before the step is not the reason why
one is blocked after it. -/
theorem blocked_of_set {threads : List Worker} {i : Nat} {w : Worker} (hw : w ≠ .blocked)
    (h : Worker.blocked ∈ threads.set i w) : .blocked ∈ threads := by
  rcases List.mem_or_eq_of_mem_set h with h | h
  · exact h
  · exact absurd h.symm hw

theorem blocked_not_mem_wake (threads : List Worker) :
    Worker.blocked ∉ threads.map Worker.wake := by
  intro h
  obtain ⟨w, _, hw⟩ := List.mem_map.mp h
  cases w <;> cases hw

theorem Covered.step {p p' : ThreadPool} {a : Action} (h : p.Covered) (hstep : Step p a p') :
    p'.Covered := by
  intro hblocked
  cases hstep with
  | enqueueQuiet _ hquiet => exact absurd hblocked hquiet
  | enqueueWake _ hj =>
      have hlen := h (List.mem_of_getElem? hj)
      have hcount := count_set_add hj .notified .notified
      rw [if_neg (by decide), if_pos rfl] at hcount
      simp only [setThread, emplace, List.length_append, List.length_singleton]
      omega
  | @take i task w tasks hi hw htasks =>
      -- the worker takes a task with it, and one claim at the most
      have hlen := h (blocked_of_set (by intro hne; cases hne) hblocked)
      have hcount := count_set_add hi (.running task) .notified
      rw [if_neg (show Worker.running task ≠ .notified from by intro hne; cases hne)] at hcount
      rw [htasks, List.length_cons] at hlen
      simp only [setThread]
      split at hcount <;> omega
  | leave hi hw htasks hstop =>
      simp only [setThread, htasks, List.length_nil]
      exact Nat.zero_le _
  | block hi hw htasks hstop =>
      simp only [setThread, htasks, List.length_nil]
      exact Nat.zero_le _
  | finish hi =>
      have hlen := h (blocked_of_set (by decide) hblocked)
      have hcount := count_set_add hi .checking .notified
      rw [if_neg (by intro hne; cases hne), if_neg (by decide)] at hcount
      simp only [setThread]
      omega
  | spuriousWakeup hi =>
      have hlen := h (List.mem_of_getElem? hi)
      have hcount := count_set_add hi .checking .notified
      rw [if_neg (by decide), if_neg (by decide)] at hcount
      simp only [setThread]
      omega
  | stopPool _ => exact h hblocked
  | notifyAll _ => exact absurd hblocked (blocked_not_mem_wake p.threads)
  | join _ _ => exact h hblocked

theorem Awake.step {p p' : ThreadPool} {a : Action} (h : p.Awake) (hstep : Step p a p') :
    p'.Awake := by
  obtain ⟨hstop, hawake⟩ := h
  cases hstep with
  | enqueueQuiet _ _ => exact ⟨hstop, hawake⟩
  | enqueueWake _ hj => exact absurd (List.mem_of_getElem? hj) hawake
  | take _ _ _ =>
      exact ⟨hstop, fun hb => hawake (blocked_of_set (by intro hne; cases hne) hb)⟩
  | leave _ _ _ _ => exact ⟨hstop, fun hb => hawake (blocked_of_set (by decide) hb)⟩
  | block _ _ _ hrun =>
      rw [hstop] at hrun
      cases hrun
  | finish _ => exact ⟨hstop, fun hb => hawake (blocked_of_set (by decide) hb)⟩
  | spuriousWakeup hi => exact absurd (List.mem_of_getElem? hi) hawake
  | stopPool _ => exact ⟨rfl, hawake⟩
  | notifyAll _ => exact ⟨hstop, blocked_not_mem_wake p.threads⟩
  | join _ _ => exact ⟨hstop, hawake⟩

/-- The destructor sets `stop` first. -/
theorem stop_of_teardown {n : Nat} {p : ThreadPool} (h : (system n).Reachable p) :
    p.teardown ≠ .none → p.stop = true := by
  apply h.induction (P := fun p => p.teardown ≠ .none → p.stop = true)
  · intro hne
    exact absurd rfl hne
  · intro p a p' _ ih hstep hne
    cases step_cases hstep with
    | stopPool _ => rfl
    | notifyAll hphase => exact ih (by rw [hphase]; decide)
    | join hphase _ => exact ih (by rw [hphase]; decide)
    | _ => exact ih hne

theorem covered_of_reachable {n : Nat} {p : ThreadPool} (h : (system n).Reachable p) :
    p.Covered := by
  apply h.induction (P := Covered)
  · intro _
    exact Nat.zero_le _
  · intro p a p' _ ih hstep
    exact ih.step (step_cases hstep)

/-- **No lost wakeup.** In every reachable state a blocked worker leaves
no task without a notified one, and behind `notify_all` no run reaches a
state with a worker blocked. -/
theorem no_lost_wakeup (n : Nat) {p : ThreadPool} (h : (system n).Reachable p) :
    (.blocked ∈ p.threads → p.tasks.length ≤ p.threads.count .notified) ∧
    ∀ (q : ThreadPool) (as : List Action) (r : ThreadPool), p.step .notifyAll = some q →
      (system n).runFrom q as = some r → .blocked ∉ r.threads := by
  refine ⟨covered_of_reachable h, ?_⟩
  intro q as r hnotify hrun
  have hq : q.Awake := by
    cases step_cases hnotify with
    | notifyAll hphase =>
        have hstop := stop_of_teardown h (by rw [hphase]; decide)
        exact ⟨hstop, blocked_not_mem_wake p.threads⟩
  have hr : r.Awake :=
    System.runFrom_induction (fun s a s' hstep hs => hs.step (step_cases hstep)) hrun hq
  exact hr.2

/-- Two workers blocked, one of them notified of the only task, and the
pool stopped. -/
theorem no_lost_wakeup_stopped :
    let p : ThreadPool :=
      { threads := [.notified, .blocked], tasks := [0], stop := true, teardown := .stopped,
        enqueued := 1 }
    (.blocked ∈ p.threads → p.tasks.length ≤ p.threads.count .notified) ∧
    ∀ (q : ThreadPool) (as : List Action) (r : ThreadPool), p.step .notifyAll = some q →
      (system 2).runFrom q as = some r → .blocked ∉ r.threads :=
  no_lost_wakeup 2 ⟨[.check 0, .check 1, .enqueue none (some 0), .stopPool], rfl⟩

end ThreadPool

end Pine
