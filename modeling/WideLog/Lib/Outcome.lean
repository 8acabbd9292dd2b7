import Mathlib.Order.Basic

/-!
# Mutations that may unwind

A method that mutates its receiver in place can panic half way.  The receiver
then keeps whatever was written before the panic: it is still reachable from
destructors and from a caller that catches the unwinding.  An `Outcome` records
the state left behind in both cases.
-/

universe u v w

/-- The state a mutating call leaves behind, and whether the call returned. -/
inductive Outcome (σ : Type u) where
  | ret (s : σ)
  | panic (s : σ)
deriving DecidableEq, Repr

namespace Outcome

variable {σ : Type u} {τ : Type v} {υ : Type w}

/-- The state left behind, however the call ended. -/
def state : Outcome σ → σ
  | .ret s => s
  | .panic s => s

/-- Run a second mutation on the state left by a first one that returned. -/
def bind : Outcome σ → (σ → Outcome σ) → Outcome σ
  | .ret s, f => f s
  | .panic s, _ => .panic s

/-- The outcome for a structure of which the mutated state is a part. -/
def map (f : σ → τ) : Outcome σ → Outcome τ
  | .ret s => .ret (f s)
  | .panic s => .panic (f s)

/-- Run a destructor on the state left by a call, however the call ended. -/
def andFinally : Outcome σ → (σ → Outcome σ) → Outcome σ
  | .ret s, f => f s
  | .panic s, f => .panic (f s).state

@[simp] theorem state_ret (s : σ) : (ret s).state = s := rfl

@[simp] theorem state_panic (s : σ) : (panic s).state = s := rfl

@[simp] theorem bind_ret (s : σ) (f : σ → Outcome σ) : (ret s).bind f = f s := rfl

@[simp] theorem bind_panic (s : σ) (f : σ → Outcome σ) : (panic s).bind f = .panic s := rfl

@[simp] theorem map_ret (f : σ → τ) (s : σ) : (ret s).map f = .ret (f s) := rfl

@[simp] theorem map_panic (f : σ → τ) (s : σ) : (panic s).map f = .panic (f s) := rfl

@[simp] theorem andFinally_ret (s : σ) (f : σ → Outcome σ) : (ret s).andFinally f = f s := rfl

@[simp] theorem andFinally_panic (s : σ) (f : σ → Outcome σ) :
    (panic s).andFinally f = .panic (f s).state := rfl

@[simp] theorem state_map (f : σ → τ) (o : Outcome σ) : (o.map f).state = f o.state := by
  cases o <;> rfl

/-- A second mutation that acts on an image as it does on the state acts so after a first
one. -/
theorem bind_map {g : σ → τ} {o : Outcome σ} {o' : Outcome τ} {f : σ → Outcome σ}
    {f' : τ → Outcome τ} (ho : o' = o.map g) (hf : ∀ s, f' (g s) = (f s).map g) :
    o'.bind f' = (o.bind f).map g := by
  rw [ho]
  cases o with
  | ret s => exact hf s
  | panic s => rfl

/-- What holds of the state a first mutation leaves, and is kept by a second one, holds
of the state both leave. -/
theorem state_bind {P : σ → Prop} {o : Outcome σ} {f : σ → Outcome σ} (ho : P o.state)
    (hf : ∀ s, P s → P (f s).state) : P (o.bind f).state := by
  cases o with
  | ret s => exact hf s ho
  | panic s => exact ho

end Outcome
