import Mathlib.Data.List.Basic

/-!
# Task-local values

A task-local key has a slot on every thread.  A scope of the key is a future that
owns a slot of its own: whenever the future is polled the two slots are exchanged,
and they are exchanged again when the poll ends, so the value of the scope is
visible while it is being polled and the value it displaced comes back afterwards.
-/

universe u

/-- The slot of a thread, and the slots of the scopes that are open in the task it
is to poll, the innermost first. -/
@[ext]
structure TaskLocal (T : Type u) where
  value : Option T
  slots : List (Option T)
deriving DecidableEq

namespace TaskLocal

variable {T : Type u}

/-- A thread on which no scope is open. -/
def new : TaskLocal T := ⟨none, []⟩

/-- The first poll of a new scope with value `v`. -/
def enter (v : T) (l : TaskLocal T) : TaskLocal T := ⟨some v, l.value :: l.slots⟩

/-- The last poll of the innermost scope ends, and the scope with it. -/
def leave (l : TaskLocal T) : TaskLocal T :=
  match l.slots with
  | [] => l
  | slot :: slots => ⟨slot, slots⟩

/-- A poll of the task ends: each scope, from the innermost one outwards, exchanges
its slot with that of the thread. -/
def swapOut : Option T → List (Option T) → Option T × List (Option T)
  | value, [] => (value, [])
  | value, slot :: slots => ((swapOut slot slots).1, value :: (swapOut slot slots).2)

/-- A poll of the task begins: each scope, from the outermost one inwards, exchanges
its slot with that of the thread. -/
def swapIn : Option T → List (Option T) → Option T × List (Option T)
  | value, [] => (value, [])
  | value, slot :: slots => (slot, (swapIn value slots).1 :: (swapIn value slots).2)

/-- The poll of the task ends. -/
def suspend (l : TaskLocal T) : TaskLocal T :=
  ⟨(swapOut l.value l.slots).1, (swapOut l.value l.slots).2⟩

/-- The task is polled again. -/
def resume (l : TaskLocal T) : TaskLocal T :=
  ⟨(swapIn l.value l.slots).1, (swapIn l.value l.slots).2⟩

/-- The scopes with values `vs`, innermost first, are being polled by a thread that
had `base` in its slot. -/
def Polled (base : Option T) (vs : List T) (l : TaskLocal T) : Prop :=
  l.value :: l.slots = vs.map some ++ [base]

/-- The scopes with values `vs` are open, and not being polled. -/
def Idle (base : Option T) (vs : List T) (l : TaskLocal T) : Prop :=
  l.value = base ∧ l.slots = vs.map some

theorem swapIn_swapOut (value : Option T) (slots : List (Option T)) :
    swapIn (swapOut value slots).1 (swapOut value slots).2 = (value, slots) := by
  induction slots generalizing value with
  | nil => rfl
  | cons slot slots ih => simp only [swapOut, swapIn, ih]

/-- A task that is polled again finds the scopes as it left them. -/
theorem resume_suspend (l : TaskLocal T) : l.suspend.resume = l := by
  simp only [suspend, resume, swapIn_swapOut]

variable {base : Option T} {vs : List T} {l : TaskLocal T}

theorem polled_new : Polled none [] (new : TaskLocal T) := rfl

theorem Polled.enter (h : Polled base vs l) (v : T) : Polled base (v :: vs) (l.enter v) :=
  congrArg (some v :: ·) h

theorem Polled.leave {v : T} (h : Polled base (v :: vs) l) : Polled base vs l.leave := by
  obtain ⟨value, slots⟩ := l
  have hslots : slots = vs.map some ++ [base] := (List.cons_eq_cons.mp h).2
  cases slots with
  | nil => simp at hslots
  | cons slot slots => exact hslots

/-- Where a scope is left there is nothing new. -/
theorem mem_of_mem_leave {v : Option T} (h : v ∈ l.leave.value :: l.leave.slots) :
    v ∈ l.value :: l.slots := by
  obtain ⟨value, slots⟩ := l
  cases slots with
  | nil => exact h
  | cons slot slots => exact List.mem_cons_of_mem value h

/-- While scopes are being polled, the value of the innermost one is visible, and
without scopes the one the thread had before. -/
theorem Polled.value_eq (h : Polled base vs l) : l.value = (vs.head?.map some).getD base := by
  cases vs with
  | nil => exact (List.cons_eq_cons.mp h).1
  | cons v vs => exact (List.cons_eq_cons.mp h).1

theorem swapOut_of_eq_append {value : Option T} {slots : List (Option T)}
    (h : value :: slots = vs.map some ++ [base]) : swapOut value slots = (base, vs.map some) := by
  induction vs generalizing value slots with
  | nil =>
      obtain ⟨rfl, rfl⟩ := List.cons_eq_cons.mp h
      rfl
  | cons v vs ih =>
      obtain ⟨rfl, hslots⟩ := List.cons_eq_cons.mp h
      cases slots with
      | nil => simp at hslots
      | cons slot slots => simp only [swapOut, ih hslots, List.map_cons]

/-- When the poll ends the thread has back what it had before. -/
theorem Polled.suspend (h : Polled base vs l) : Idle base vs l.suspend := by
  unfold TaskLocal.suspend
  rw [swapOut_of_eq_append h]
  exact ⟨rfl, rfl⟩

theorem swapIn_map (base : Option T) (vs : List T) :
    (swapIn base (vs.map some)).1 :: (swapIn base (vs.map some)).2 = vs.map some ++ [base] := by
  induction vs with
  | nil => rfl
  | cons v vs ih => exact congrArg (some v :: ·) ih

/-- A poll makes the scopes visible again. -/
theorem Idle.resume (h : Idle base vs l) : Polled base vs l.resume := by
  obtain ⟨rfl, hslots⟩ := h
  unfold TaskLocal.resume
  rw [hslots]
  exact swapIn_map _ _

end TaskLocal
