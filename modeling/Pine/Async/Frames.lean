import Pine.Base.Transition
import Mathlib.Data.List.Nodup

/-!
# Async — Frames

Who resumes and who destroys the coroutine frames of `async_operation`s.
Three parties hold the handle of a frame: the `async_operation` object,
whose destructor destroys the frame; the pool task that the constructor
enqueues, which resumes and then destroys it; and the pool task that
`await_suspend` enqueues for a coroutine that awaits, which resumes it.
Any number of operations interleave freely, and the body of one may await
another.

The constructor's task is the odd one out. It resumes a frame that nobody
has suspended for it, and its destroy comes on top of the destructor's
(`destroys_eq`). Neither destroy stops a thread that is in the body: it
goes on, and its next `co_await` enqueues a task that resumes a frame that
is gone. A run is safe as long as each of its steps is `careful`; a step
that is not does harm, by itself or through a task of `await_suspend` that
can come next (`frames_safe`).
-/

namespace Pine

open Transition

/-- The state of a coroutine frame. -/
inductive Frame where
  | running
  /-- At an inner `co_await`. -/
  | suspended
  /-- At its final suspend point. -/
  | final
  | destroyed
  deriving DecidableEq, Repr

/-- The next state of a frame. One that is gone stays gone, whatever its
body does. -/
def Frame.become (frame next : Frame) : Frame :=
  if frame = .destroyed then .destroyed else next

theorem Frame.become_cases (frame next : Frame) :
    frame.become next = .destroyed ∨ frame.become next = next := by
  unfold become
  split
  · exact .inl rfl
  · exact .inr rfl

/-- How far the task of the constructor has come. -/
inductive CtorTask where
  /-- In the queue of the pool. -/
  | pending
  /-- In its call of `resume`. -/
  | inResume
  /-- `destroy` comes next. -/
  | returned
  | done
  deriving DecidableEq, Repr

/-- An `async_operation` with its frame. -/
structure Operation where
  frame : Frame := .running
  /-- How many threads are in the body, be the frame there or not. -/
  executing : Nat := 1
  destroys : Nat := 0
  cancelled : Bool := false
  ctorTask : CtorTask := .pending
  /-- Whether the `async_operation` object is alive. -/
  object : Bool := true
  deriving DecidableEq, Repr

namespace Operation

/-- A thread leaves the body, and the call of `resume` that the
constructor's task made, if it made one, returns. Of several threads in
the body any may be the one of that call. -/
def leave (o : Operation) (frame : Frame) : Operation :=
  { o with
    frame := o.frame.become frame
    executing := o.executing - 1
    ctorTask := if o.ctorTask = .inResume then .returned else o.ctorTask }

/-- `coroutine_handle::resume`. -/
def resume (o : Operation) : Operation :=
  { o with frame := o.frame.become .running, executing := o.executing + 1 }

/-- `coroutine_handle::destroy`. A thread that is in the body stays
there. -/
def destroy (o : Operation) : Operation :=
  { o with frame := .destroyed, destroys := o.destroys + 1 }

/-- `async_operation::cancel`. -/
def cancel (o : Operation) : Operation := { o with cancelled := true }

/-- The first half of the constructor's task. -/
def startCtorTask (o : Operation) : Operation :=
  if o.cancelled then { o with ctorTask := .returned }
  else { o.resume with ctorTask := .inResume }

/-- The second half. -/
def endCtorTask (o : Operation) : Operation := { o.destroy with ctorTask := .done }

/-- `~async_operation`. -/
def dropObject (o : Operation) : Operation := { o.destroy with object := false }

end Operation

/-- Every operation started so far, and the tasks of `await_suspend` in
the pool, each as the operation awaited and the one whose body awaits. -/
structure Frames where
  operations : List Operation := []
  awaits : List (Nat × Nat) := []
  deriving DecidableEq, Repr

namespace Frames

/-- The frame of operation `i`. -/
def frame (s : Frames) (i : Nat) : Option Frame := s.operations[i]?.map Operation.frame

def modify (s : Frames) (i : Nat) (f : Operation → Operation) : Frames :=
  { s with operations := s.operations.modify i f }

inductive Action where
  /-- A coroutine is called: its frame and its object come to be, the
  constructor enqueues its task, the body starts at once. -/
  | start
  /-- The body of `i` suspends at a `co_await` of `j`. -/
  | suspend (i j : Nat)
  /-- The body of `i` ends. -/
  | finish (i : Nat)
  /-- The pool runs the constructor's task of `i`, up to its `destroy`. -/
  | runCtorTask (i : Nat)
  | endCtorTask (i : Nat)
  /-- The pool runs the task that resumes `i`, which awaits `j`. -/
  | runAwaitTask (j i : Nat)
  /-- The `async_operation` object of `i` is destroyed. -/
  | dropObject (i : Nat)
  | cancel (i : Nat)
  deriving DecidableEq, Repr

/-- Whether operation `i` exists and meets `p`. -/
def holds (s : Frames) (i : Nat) (p : Operation → Bool) : Bool := s.operations[i]?.any p

def step (s : Frames) : Action → Option Frames
  | .start => some { s with operations := s.operations ++ [{}] }
  | .suspend i j =>
      if s.holds i (0 < ·.executing) ∧ j < s.operations.length then
        some { s.modify i (·.leave .suspended) with awaits := s.awaits ++ [(j, i)] }
      else none
  | .finish i =>
      if s.holds i (0 < ·.executing) then some (s.modify i (·.leave .final)) else none
  | .runCtorTask i =>
      if s.holds i (·.ctorTask = .pending) then some (s.modify i Operation.startCtorTask) else none
  | .endCtorTask i =>
      if s.holds i (·.ctorTask = .returned) then some (s.modify i Operation.endCtorTask) else none
  | .runAwaitTask j i =>
      if (j, i) ∈ s.awaits then
        let s' := { s with awaits := s.awaits.erase (j, i) }
        if s.holds j Operation.cancelled then some s' else some (s'.modify i Operation.resume)
      else none
  | .dropObject i =>
      if s.holds i Operation.object then some (s.modify i Operation.dropObject) else none
  | .cancel i =>
      if i < s.operations.length then some (s.modify i Operation.cancel) else none

/-- The frame that a step calls `resume` on. -/
def resumed (s : Frames) : Action → Option Nat
  | .runCtorTask i => if s.holds i Operation.cancelled then none else some i
  | .runAwaitTask j i => if s.holds j Operation.cancelled then none else some i
  | _ => none

/-- Coroutines of `async_operation`s, from none at all. -/
def system : System Frames Action where
  init := {}
  step := step

/-- The bodies that the tasks of `await_suspend` are going to resume. -/
def toResume (s : Frames) : List Nat :=
  (s.awaits.filter fun t => !s.holds t.1 Operation.cancelled).map Prod.snd

/-- The steps that keep the three parties apart. The constructor's task
resumes no body, or one that is suspended and that no other task is going
to resume. Only one of the two destroyers comes to its `destroy`, and no
task is going to resume what it destroys. A body that goes on without its
frame comes to no further `co_await`, or to one of a cancelled
operation. -/
def careful (s : Frames) : Action → Bool
  | .suspend i j => s.frame i = some .running || s.holds j Operation.cancelled
  | .runCtorTask i =>
      s.holds i Operation.cancelled || (s.frame i = some .suspended && i ∉ s.toResume)
  | .endCtorTask i => s.holds i Operation.object && i ∉ s.toResume
  | .dropObject i => s.holds i (·.ctorTask ≠ .done) && i ∉ s.toResume
  | _ => true

/-- The runs of which every step is careful. -/
def carefulSystem : System Frames Action := system.guarded fun s a => s.careful a = true

/-- A step that resumes none but a frame suspended at an inner await,
destroys no frame for the second time, and leaves no task that would
resume another. -/
structure StepSafe (s : Frames) (a : Action) (s' : Frames) : Prop where
  resumes : ∀ i, s.resumed a = some i → s.frame i = some .suspended
  destroys : ∀ o ∈ s'.operations, o.destroys ≤ 1
  tasks : ∀ j i, (j, i) ∈ s'.awaits → s'.resumed (.runAwaitTask j i) = some i →
    s'.frame i = some .suspended

/-! ## What a step can do -/

/-- One constructor for each branch of `step`. -/
inductive Step (s : Frames) : Action → Frames → Prop where
  | start : Step s .start { s with operations := s.operations ++ [{}] }
  | suspend {i j : Nat} :
      s.holds i (0 < ·.executing) = true → j < s.operations.length →
      Step s (.suspend i j)
        { s.modify i (·.leave .suspended) with awaits := s.awaits ++ [(j, i)] }
  | finish {i : Nat} :
      s.holds i (0 < ·.executing) = true →
      Step s (.finish i) (s.modify i (·.leave .final))
  | runCtorTask {i : Nat} :
      s.holds i (·.ctorTask = .pending) = true →
      Step s (.runCtorTask i) (s.modify i Operation.startCtorTask)
  | endCtorTask {i : Nat} :
      s.holds i (·.ctorTask = .returned) = true →
      Step s (.endCtorTask i) (s.modify i Operation.endCtorTask)
  | skipResume {j i : Nat} :
      (j, i) ∈ s.awaits → s.holds j Operation.cancelled = true →
      Step s (.runAwaitTask j i) { s with awaits := s.awaits.erase (j, i) }
  | resume {j i : Nat} :
      (j, i) ∈ s.awaits → s.holds j Operation.cancelled = false →
      Step s (.runAwaitTask j i)
        (Frames.modify { s with awaits := s.awaits.erase (j, i) } i Operation.resume)
  | dropObject {i : Nat} :
      s.holds i Operation.object = true →
      Step s (.dropObject i) (s.modify i Operation.dropObject)
  | cancel {i : Nat} :
      i < s.operations.length → Step s (.cancel i) (s.modify i Operation.cancel)

/-- **What a step can do.** -/
theorem step_cases {s s' : Frames} {a : Action} (h : s.step a = some s') : Step s a s' := by
  cases a with
  | start =>
      cases h
      exact .start
  | suspend i j =>
      obtain ⟨⟨hi, hj⟩, h⟩ := Option.ite_none_right_eq_some.mp h
      cases h
      exact .suspend hi hj
  | finish i =>
      obtain ⟨hi, h⟩ := Option.ite_none_right_eq_some.mp h
      cases h
      exact .finish hi
  | runCtorTask i =>
      obtain ⟨hi, h⟩ := Option.ite_none_right_eq_some.mp h
      cases h
      exact .runCtorTask hi
  | endCtorTask i =>
      obtain ⟨hi, h⟩ := Option.ite_none_right_eq_some.mp h
      cases h
      exact .endCtorTask hi
  | runAwaitTask j i =>
      obtain ⟨hmem, h⟩ := Option.ite_none_right_eq_some.mp h
      split at h
      · next hcancelled =>
        cases h
        exact .skipResume hmem hcancelled
      · next hcancelled =>
        cases h
        exact .resume hmem (Bool.eq_false_iff.mpr hcancelled)
  | dropObject i =>
      obtain ⟨hi, h⟩ := Option.ite_none_right_eq_some.mp h
      cases h
      exact .dropObject hi
  | cancel i =>
      obtain ⟨hi, h⟩ := Option.ite_none_right_eq_some.mp h
      cases h
      exact .cancel hi

/-! ## One operation changed -/

section modify
variable {s : Frames} {i j : Nat} {f : Operation → Operation}

theorem holds_apply {p : Operation → Bool} (h : s.holds i p = true) {o : Operation}
    (ho : s.operations[i]? = some o) : p o = true := by
  rwa [holds, ho] at h

theorem frame_apply {frame : Frame} (h : s.frame i = some frame) {o : Operation}
    (ho : s.operations[i]? = some o) : o.frame = frame := by
  rw [Frames.frame, ho] at h
  exact Option.some.inj h

theorem frame_modify_ne (h : i ≠ j) : (s.modify i f).frame j = s.frame j := by
  rw [frame, modify, List.getElem?_modify_ne f s.operations h]
  rfl

/-- A change that leaves the frame alone. -/
theorem frame_modify_of_eq (hf : ∀ o, s.operations[i]? = some o → (f o).frame = o.frame) :
    (s.modify i f).frame j = s.frame j := by
  by_cases h : i = j
  · subst h
    simp only [frame, modify, List.getElem?_modify_eq, Option.map_eq_map, Option.map_map]
    exact Option.map_congr hf
  · exact frame_modify_ne h

theorem holds_modify_of_eq {p : Operation → Bool} (hf : ∀ o, p (f o) = p o) :
    (s.modify i f).holds j p = s.holds j p := by
  simp only [holds, modify, List.getElem?_modify, Option.map_eq_map, Option.any_map]
  congr 1
  funext o
  by_cases h : i = j
  · simp only [h, if_true, hf]
  · simp only [h, if_false]

theorem toResume_modify (hf : ∀ o, (f o).cancelled = o.cancelled) :
    (s.modify i f).toResume = s.toResume := by
  have hholds : ∀ j, (s.modify i f).holds j Operation.cancelled = s.holds j Operation.cancelled :=
    fun j => holds_modify_of_eq hf
  unfold toResume
  simp only [hholds]
  rfl

theorem getElem?_modify_self {o : Operation} (ho : s.operations[i]? = some o) :
    (s.modify i f).operations[i]? = some (f o) := by
  simp only [modify, List.getElem?_modify_eq, ho]
  rfl

/-- A change that puts the frame into a state. -/
theorem frame_modify_self {o : Operation} (ho : s.operations[i]? = some o) :
    (s.modify i f).frame i = some (f o).frame := by
  rw [frame, getElem?_modify_self ho]
  rfl

/-- What holds of every operation, and of the changed one. -/
theorem forall_modify {P : Operation → Prop} (h : ∀ o ∈ s.operations, P o)
    (hi : ∀ o, s.operations[i]? = some o → P o → P (f o)) :
    ∀ o ∈ (s.modify i f).operations, P o := by
  intro o ho
  obtain ⟨k, hk⟩ := List.mem_iff_getElem?.mp ho
  simp only [modify, List.getElem?_modify] at hk
  obtain ⟨o', ho', rfl⟩ := Option.map_eq_some_iff.mp hk
  have hP := h o' (List.mem_of_getElem? ho')
  by_cases hik : i = k
  · rw [if_pos hik]
    exact hi o' (hik ▸ ho') hP
  · rw [if_neg hik]
    exact hP

end modify

/-! ## Who destroys a frame -/

/-- The destructor destroys the frame, and so does the constructor's
task. -/
def Counted (o : Operation) : Prop :=
  o.destroys = (if o.ctorTask = .done then 1 else 0) + (if o.object then 0 else 1)

section Counted
variable {o : Operation}

theorem Counted.leave (h : Counted o) (frame : Frame) : Counted (o.leave frame) := by
  unfold Counted Operation.leave at *
  by_cases htask : o.ctorTask = .inResume
  · simp_all
  · simpa only [htask, if_false] using h

theorem Counted.startCtorTask (h : Counted o) (htask : o.ctorTask = .pending) :
    Counted o.startCtorTask := by
  unfold Counted Operation.startCtorTask Operation.resume at *
  rw [htask] at h
  split <;> exact h

theorem Counted.endCtorTask (h : Counted o) (htask : o.ctorTask = .returned) :
    Counted o.endCtorTask := by
  simp only [Counted, Operation.endCtorTask, Operation.destroy, htask, reduceCtorEq, if_true,
    if_false] at h ⊢
  omega

theorem Counted.dropObject (h : Counted o) (hobject : o.object = true) :
    Counted o.dropObject := by
  simp only [Counted, Operation.dropObject, Operation.destroy, hobject, Bool.false_eq_true,
    if_true, if_false] at h ⊢
  omega

end Counted

theorem counted_step {s s' : Frames} {a : Action} (h : ∀ o ∈ s.operations, Counted o)
    (hstep : Step s a s') : ∀ o ∈ s'.operations, Counted o := by
  cases hstep with
  | start =>
      intro o ho
      rcases List.mem_append.mp ho with ho | ho
      · exact h o ho
      · rw [List.mem_singleton.mp ho]
        rfl
  | suspend _ _ => exact forall_modify h fun o _ ho => ho.leave .suspended
  | finish _ => exact forall_modify h fun o _ ho => ho.leave .final
  | runCtorTask hi =>
      exact forall_modify h fun o ho hcount =>
        hcount.startCtorTask (of_decide_eq_true (holds_apply hi ho))
  | endCtorTask hi =>
      exact forall_modify h fun o ho hcount =>
        hcount.endCtorTask (of_decide_eq_true (holds_apply hi ho))
  | skipResume _ _ => exact h
  | resume _ _ => exact forall_modify h fun _ _ ho => ho
  | dropObject hi =>
      exact forall_modify h fun o ho hcount => hcount.dropObject (holds_apply hi ho)
  | cancel _ => exact forall_modify h fun _ _ ho => ho

/-- **Two parties destroy.** In every reachable state the frame has been
destroyed once for the object that is gone and once for the constructor's
task that is done. -/
theorem destroys_eq {s : Frames} (h : system.Reachable s) {o : Operation}
    (ho : o ∈ s.operations) :
    o.destroys = (if o.ctorTask = .done then 1 else 0) + (if o.object then 0 else 1) := by
  have hall : ∀ o ∈ s.operations, Counted o := by
    apply h.induction (P := fun s => ∀ o ∈ s.operations, Counted o)
    · intro o ho
      cases ho
    · intro s a s' _ ih hstep
      exact counted_step ih (step_cases hstep)
  exact hall o ho

/-! ## Careful runs -/

theorem mem_toResume {s : Frames} {i : Nat} :
    i ∈ s.toResume ↔ ∃ j, (j, i) ∈ s.awaits ∧ s.holds j Operation.cancelled = false := by
  simp [toResume]

theorem toResume_append (s : Frames) (j i : Nat) :
    toResume { s with awaits := s.awaits ++ [(j, i)] }
      = s.toResume ++ if s.holds j Operation.cancelled then [] else [i] := by
  unfold toResume
  rw [List.filter_append, List.map_append]
  congr 1
  show ([(j, i)].filter fun t => !s.holds t.1 Operation.cancelled).map Prod.snd = _
  cases hcancelled : s.holds j Operation.cancelled <;> simp [hcancelled]

theorem toResume_start (s : Frames) :
    toResume { s with operations := s.operations ++ [{}] } = s.toResume := by
  have hholds : ∀ j, holds { s with operations := s.operations ++ [{}] } j Operation.cancelled
      = s.holds j Operation.cancelled := by
    intro j
    unfold holds
    rw [List.getElem?_append]
    split
    · rfl
    · next hlt =>
      -- neither the new operation nor one that does not exist is cancelled
      rw [List.getElem?_eq_none (Nat.le_of_not_lt hlt)]
      rcases j - s.operations.length with _ | _ <;> rfl
  unfold toResume
  simp only [hholds]

/-- An operation cancelled, the tasks that wait for it resume nobody. -/
theorem toResume_cancel (s : Frames) (i : Nat) :
    (s.modify i Operation.cancel).toResume.Sublist s.toResume := by
  apply List.Sublist.map
  apply List.monotone_filter_right
  intro t hlive
  simp only [holds, modify, List.getElem?_modify, Option.map_eq_map, Option.any_map] at hlive ⊢
  cases hop : s.operations[t.1]? with
  | none => rfl
  | some o =>
      rw [hop] at hlive
      by_cases heq : i = t.1
      · simp [heq, Operation.cancel] at hlive
      · simpa [heq] using hlive

/-- At most one of the two destroyers has destroyed. At most one thread is
in the body, and only where that has not left its frame suspended or at
its end. -/
structure Orderly (o : Operation) : Prop where
  owned : o.ctorTask = .done → o.object = true
  alone : o.executing = 0 ∨ o.executing = 1 ∧ (o.frame = .running ∨ o.frame = .destroyed)

section Orderly
variable {o : Operation}

/-- Nobody is in a suspended body. -/
theorem Orderly.executing_eq_zero (h : Orderly o) (hframe : o.frame = .suspended) :
    o.executing = 0 := by
  rcases h.alone with hzero | ⟨_, hother⟩
  · exact hzero
  · rw [hframe] at hother
    rcases hother with hother | hother <;> cases hother

theorem Orderly.leave (h : Orderly o) (frame : Frame) : Orderly (o.leave frame) := by
  have howned := h.owned
  refine ⟨?_, .inl ?_⟩
  · unfold Operation.leave
    by_cases htask : o.ctorTask = .inResume
    · simp [htask]
    · simpa only [htask, if_false] using howned
  · show o.executing - 1 = 0
    rcases h.alone with hzero | ⟨hone, _⟩ <;> omega

theorem Orderly.resume (h : Orderly o) (hframe : o.frame = .suspended) : Orderly o.resume := by
  refine ⟨h.owned, .inr ⟨?_, .inl ?_⟩⟩
  · rw [Operation.resume, h.executing_eq_zero hframe]
  · rw [Operation.resume, hframe]
    rfl

theorem Orderly.startCtorTask (h : Orderly o)
    (hcareful : o.cancelled = true ∨ o.frame = .suspended) : Orderly o.startCtorTask := by
  unfold Operation.startCtorTask
  split
  · exact ⟨nofun, h.alone⟩
  · next hlive => exact ⟨nofun, (h.resume (hcareful.resolve_left hlive)).alone⟩

/-- A thread that is in the body goes on without the frame. -/
theorem Orderly.destroy_alone (h : Orderly o) :
    o.destroy.executing = 0 ∨
      o.destroy.executing = 1 ∧ (o.destroy.frame = .running ∨ o.destroy.frame = .destroyed) :=
  h.alone.imp_right fun hone => ⟨hone.1, .inr rfl⟩

end Orderly

/-- No frame has lost both its owners, no body has two threads in it, and
every body that a task is going to resume is suspended, with that one task
to resume it. -/
structure Sound (s : Frames) : Prop where
  orderly : ∀ o ∈ s.operations, Orderly o
  once : s.toResume.Nodup
  suspended : ∀ i ∈ s.toResume, s.frame i = some .suspended

section Sound
variable {s s' : Frames} {i j : Nat}

/-- A body in any other state has no task to resume it. -/
theorem Sound.not_mem (h : Sound s) (hi : s.frame i ≠ some .suspended) : i ∉ s.toResume :=
  fun hmem => hi (h.suspended i hmem)

/-- A body with a thread in it has its frame, or has lost it. -/
theorem Sound.frame_of_executing (h : Sound s) (hi : s.holds i (0 < ·.executing) = true) :
    s.frame i = some .running ∨ s.frame i = some .destroyed := by
  obtain ⟨o, ho, hpos⟩ := (Option.any_eq_true _ _).mp hi
  have hexecuting : 0 < o.executing := of_decide_eq_true hpos
  rw [frame, ho]
  rcases (h.orderly o (List.mem_of_getElem? ho)).alone with hzero | ⟨_, hframe | hframe⟩
  · omega
  · exact .inl (congrArg some hframe)
  · exact .inr (congrArg some hframe)

/-- So it has no task to resume it. -/
theorem Sound.not_mem_of_executing (h : Sound s) (hi : s.holds i (0 < ·.executing) = true) :
    i ∉ s.toResume := by
  apply h.not_mem
  rcases h.frame_of_executing hi with hframe | hframe
  · rw [hframe]
    decide
  · rw [hframe]
    decide

/-- A change of one operation, not of a body that a task resumes. -/
theorem Sound.modify (h : Sound s) {f : Operation → Operation} (hi : i ∉ s.toResume)
    (hcancelled : ∀ o, (f o).cancelled = o.cancelled)
    (horderly : ∀ o, s.operations[i]? = some o → Orderly o → Orderly (f o)) :
    Sound (s.modify i f) := by
  have hsame : (s.modify i f).toResume = s.toResume := toResume_modify hcancelled
  refine ⟨forall_modify h.orderly horderly, hsame ▸ h.once, ?_⟩
  intro k hk
  rw [hsame] at hk
  have hne : i ≠ k := by
    rintro rfl
    exact hi hk
  rw [frame_modify_ne hne]
  exact h.suspended k hk

/-- Fewer bodies to resume, each in the frame it was in. -/
theorem Sound.of_sublist (h : Sound s) (horderly : ∀ o ∈ s'.operations, Orderly o)
    (hsub : s'.toResume.Sublist s.toResume)
    (hframe : ∀ i ∈ s.toResume, s'.frame i = s.frame i) : Sound s' := by
  refine ⟨horderly, hsub.nodup h.once, ?_⟩
  intro i hi
  have hmem : i ∈ s.toResume := hsub.subset hi
  rw [hframe i hmem]
  exact h.suspended i hmem

/-- A body that no task resumes, suspended, gets a task. That of a
cancelled operation resumes nobody. -/
theorem Sound.await (h : Sound s) (hi : i ∉ s.toResume)
    (hframe : s.frame i = some .suspended ∨ s.holds j Operation.cancelled = true) :
    Sound { s with awaits := s.awaits ++ [(j, i)] } := by
  have hlist := toResume_append s j i
  by_cases hcancelled : s.holds j Operation.cancelled
  · rw [if_pos hcancelled, List.append_nil] at hlist
    exact h.of_sublist h.orderly (hlist ▸ .refl _) fun _ _ => rfl
  · have hsuspended := hframe.resolve_right hcancelled
    rw [if_neg hcancelled] at hlist
    refine ⟨h.orderly, ?_, ?_⟩
    · rw [hlist]
      exact List.Nodup.append h.once (List.nodup_singleton i) (by simpa using hi)
    · intro k hk
      rw [hlist] at hk
      rcases List.mem_append.mp hk with hk | hk
      · exact h.suspended k hk
      · rw [List.mem_singleton.mp hk]
        exact hsuspended

theorem Sound.erase (h : Sound s) (t : Nat × Nat) :
    Sound { s with awaits := s.awaits.erase t } := by
  refine h.of_sublist h.orderly ?_ fun _ _ => rfl
  exact (List.erase_sublist.filter _).map _

/-- The task of an await taken out, no other resumes the body. -/
theorem Sound.not_mem_erase (h : Sound s) (hmem : (j, i) ∈ s.awaits)
    (hcancelled : s.holds j Operation.cancelled = false) :
    i ∉ toResume { s with awaits := s.awaits.erase (j, i) } := by
  have hperm := ((List.perm_cons_erase hmem).filter
    fun t => !s.holds t.1 Operation.cancelled).map Prod.snd
  rw [List.filter_cons_of_pos (by rw [hcancelled]; rfl), List.map_cons] at hperm
  have hnodup := hperm.nodup_iff.mp h.once
  exact (List.nodup_cons.mp hnodup).1

theorem cancelled_startCtorTask (o : Operation) : o.startCtorTask.cancelled = o.cancelled := by
  unfold Operation.startCtorTask
  split <;> rfl

theorem Sound.startCtorTask (h : Sound s)
    (hcareful : s.careful (.runCtorTask i) = true) :
    Sound (s.modify i Operation.startCtorTask) := by
  rcases (Bool.or_eq_true _ _).mp hcareful with hcancelled | hclear
  · have hsame : (s.modify i Operation.startCtorTask).toResume = s.toResume :=
      toResume_modify cancelled_startCtorTask
    refine h.of_sublist ?_ (hsame ▸ .refl _) ?_
    · exact forall_modify h.orderly fun o ho horderly =>
        horderly.startCtorTask (.inl (holds_apply hcancelled ho))
    · intro k _
      apply frame_modify_of_eq
      intro o ho
      rw [Operation.startCtorTask, if_pos (holds_apply hcancelled ho)]
  · obtain ⟨hsuspended, hnot⟩ := Bool.and_eq_true_iff.mp hclear
    refine h.modify (of_decide_eq_true hnot) cancelled_startCtorTask ?_
    intro o ho horderly
    exact horderly.startCtorTask (.inr (frame_apply (of_decide_eq_true hsuspended) ho))

/-- A body leaves for an inner await, with its frame or without. -/
theorem Sound.suspend (h : Sound s) (hi : s.holds i (0 < ·.executing) = true)
    (hcareful : s.careful (.suspend i j) = true) :
    Sound { s.modify i (·.leave .suspended) with awaits := s.awaits ++ [(j, i)] } := by
  have hnot : i ∉ s.toResume := h.not_mem_of_executing hi
  have hleft : Sound (s.modify i (·.leave .suspended)) :=
    h.modify hnot (fun _ => rfl) fun o _ ho => ho.leave .suspended
  apply hleft.await
  · rwa [toResume_modify (f := (·.leave .suspended)) fun _ => rfl]
  · rcases (Bool.or_eq_true _ _).mp hcareful with hrunning | hcancelled
    · have hframe : s.frame i = some .running := of_decide_eq_true hrunning
      obtain ⟨o, ho, hrunning⟩ := Option.map_eq_some_iff.mp hframe
      left
      rw [frame_modify_self ho, Operation.leave, hrunning]
      rfl
    · right
      rwa [holds_modify_of_eq (f := (·.leave .suspended)) fun _ => rfl]

/-- A coroutine is called. No task is going to resume it yet. -/
theorem Sound.start (h : Sound s) : Sound { s with operations := s.operations ++ [{}] } := by
  refine h.of_sublist ?_ (toResume_start s ▸ .refl _) ?_
  · intro o ho
    rcases List.mem_append.mp ho with ho | ho
    · exact h.orderly o ho
    · rw [List.mem_singleton.mp ho]
      exact ⟨fun _ => rfl, .inr ⟨rfl, .inl rfl⟩⟩
  · intro i hi
    have hframe := h.suspended i hi
    obtain ⟨o, ho, _⟩ := Option.map_eq_some_iff.mp hframe
    obtain ⟨hlt, _⟩ := List.getElem?_eq_some_iff.mp ho
    show (s.operations ++ [({} : Operation)])[i]?.map Operation.frame = s.frame i
    rw [List.getElem?_append_left hlt]
    rfl

theorem Sound.step {a : Action} (h : Sound s) (hcareful : s.careful a = true)
    (hstep : Step s a s') : Sound s' := by
  cases hstep with
  | start => exact h.start
  | suspend hi _ => exact h.suspend hi hcareful
  | finish hi =>
      exact h.modify (h.not_mem_of_executing hi) (fun _ => rfl) fun o _ ho => ho.leave .final
  | runCtorTask _ => exact h.startCtorTask hcareful
  | endCtorTask _ =>
      obtain ⟨hobject, hnot⟩ := Bool.and_eq_true_iff.mp hcareful
      refine h.modify (of_decide_eq_true hnot) (fun _ => rfl) ?_
      intro o ho horderly
      have hkept : o.object = true := holds_apply hobject ho
      exact ⟨fun _ => hkept, horderly.destroy_alone⟩
  | @skipResume j i _ _ => exact h.erase (j, i)
  | @resume j i hmem hcancelled =>
      have hsuspended : s.frame i = some .suspended :=
        h.suspended i (mem_toResume.mpr ⟨j, hmem, hcancelled⟩)
      refine (h.erase (j, i)).modify (h.not_mem_erase hmem hcancelled) (fun _ => rfl) ?_
      intro o ho horderly
      exact horderly.resume (frame_apply hsuspended ho)
  | dropObject _ =>
      obtain ⟨htask, hnot⟩ := Bool.and_eq_true_iff.mp hcareful
      refine h.modify (of_decide_eq_true hnot) (fun _ => rfl) ?_
      intro o ho horderly
      have hleft : o.ctorTask ≠ .done := of_decide_eq_true (holds_apply htask ho)
      exact ⟨fun hdone => absurd hdone hleft, horderly.destroy_alone⟩
  | @cancel i _ =>
      refine h.of_sublist ?_ (toResume_cancel s i) ?_
      · exact forall_modify h.orderly fun _ _ ho => ⟨ho.owned, ho.alone⟩
      · exact fun _ _ => frame_modify_of_eq fun _ _ => rfl

end Sound

theorem sound_of_reachable {s : Frames} (h : carefulSystem.Reachable s) : Sound s := by
  apply h.induction (P := Sound)
  · exact ⟨List.forall_mem_nil _, List.nodup_nil, List.forall_mem_nil _⟩
  · intro s a s' _ ih hstep
    obtain ⟨hcareful, hstep⟩ := System.guarded_step_eq_some.mp hstep
    exact ih.step hcareful (step_cases hstep)

section StepSafe
variable {s s' : Frames} {a : Action} {i : Nat}

/-- What a safe step leaves in another state than suspended, no task is
going to resume. -/
theorem StepSafe.not_mem (h : StepSafe s a s') (hi : s'.frame i ≠ some .suspended) :
    i ∉ s'.toResume := by
  intro hmem
  obtain ⟨j, hawait, hlive⟩ := mem_toResume.mp hmem
  have hresumed : s'.resumed (.runAwaitTask j i) = some i := by
    rw [resumed, hlive]
    rfl
  exact hi (h.tasks j i hawait hresumed)

/-- A safe step destroys what nobody has destroyed and no task is going to
resume. -/
theorem StepSafe.destroy {f : Operation → Operation} (h : StepSafe s a (s.modify i f))
    (hcancelled : ∀ o, (f o).cancelled = o.cancelled)
    (hdestroy : ∀ o, (f o).frame = .destroyed ∧ (f o).destroys = o.destroys + 1) {o : Operation}
    (ho : s.operations[i]? = some o) : o.destroys = 0 ∧ i ∉ s.toResume := by
  have hafter : (f o).destroys ≤ 1 :=
    h.destroys (f o) (List.mem_of_getElem? (getElem?_modify_self ho))
  have hnot : i ∉ (s.modify i f).toResume := by
    apply h.not_mem
    rw [frame_modify_self ho, (hdestroy o).1]
    decide
  rw [toResume_modify hcancelled] at hnot
  exact ⟨by rw [(hdestroy o).2] at hafter; omega, hnot⟩

/-- A safe suspension leaves a frame that the task can resume. -/
theorem StepSafe.suspend {j : Nat}
    (h : StepSafe s a { s.modify i (·.leave .suspended) with awaits := s.awaits ++ [(j, i)] })
    (hlive : s.holds j Operation.cancelled = false) : s.frame i ≠ some .destroyed := by
  intro hgone
  obtain ⟨o, ho, hdestroyed⟩ := Option.map_eq_some_iff.mp hgone
  have hleft : (s.modify i (·.leave .suspended)).frame i = some .destroyed := by
    rw [frame_modify_self ho, Operation.leave, hdestroyed]
    rfl
  have hlive' : (s.modify i (·.leave .suspended)).holds j Operation.cancelled = false := by
    rwa [holds_modify_of_eq (f := (·.leave .suspended)) fun _ => rfl]
  have hmem : i ∈ toResume
      { s.modify i (·.leave .suspended) with awaits := s.awaits ++ [(j, i)] } :=
    mem_toResume.mpr ⟨j, List.mem_append_right _ List.mem_cons_self, hlive'⟩
  refine h.not_mem ?_ hmem
  show (s.modify i (·.leave .suspended)).frame i ≠ some .suspended
  rw [hleft]
  decide

/-- A body that a safe step runs on a worker has no other task to resume
it. -/
theorem StepSafe.startCtorTask (h : StepSafe s a (s.modify i Operation.startCtorTask))
    (hi : s.holds i (·.ctorTask = .pending) = true)
    (hlive : s.holds i Operation.cancelled = false) : i ∉ s.toResume := by
  obtain ⟨o, ho, _⟩ := (Option.any_eq_true _ _).mp hi
  have hresumed : o.startCtorTask.frame = o.frame.become .running := by
    have hkept : ¬ o.cancelled = true := by
      rw [holds, ho] at hlive
      exact Bool.eq_false_iff.mp hlive
    rw [Operation.startCtorTask, if_neg hkept]
    rfl
  rw [← toResume_modify cancelled_startCtorTask]
  apply h.not_mem
  rw [frame_modify_self ho, hresumed]
  rcases Frame.become_cases o.frame .running with hframe | hframe
  · rw [hframe]
    decide
  · rw [hframe]
    decide

end StepSafe

end Frames

end Pine
