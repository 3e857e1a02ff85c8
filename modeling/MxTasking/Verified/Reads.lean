import Mathlib.Logic.Function.Basic

/-!
# Computations that read words

A computation over a memory of words, which reads one word after the other and decides by what it
has read how it goes on.  While others write, the words it gets may be of different moments; on a
memory that does not change it has one result.

Words at different addresses may have different types.

## Main results

* `Reads.run_bind` — the result of one computation behind another.
-/

namespace MxTasking.Verified

universe u

/-- A computation with a result in `α`: it is done, or it reads a word. -/
inductive Reads (κ : Type*) (ν : κ → Type u) (α : Type u) where
  | done (a : α)
  | read (address : κ) (next : ν address → Reads κ ν α)

namespace Reads

variable {κ : Type*} {ν : κ → Type u} {α β : Type u}

/-- The result on a memory that does not change. -/
def run (memory : ∀ address, ν address) : Reads κ ν α → α
  | done a => a
  | read address next => (next (memory address)).run memory

/-- One computation behind another. -/
def andThen : Reads κ ν α → (α → Reads κ ν β) → Reads κ ν β
  | done a, f => f a
  | read address next, f => read address fun word => (next word).andThen f

/-- Reading one word. -/
def word (address : κ) : Reads κ ν (ν address) := read address done

instance : Monad (Reads κ ν) where
  pure := done
  bind := andThen

variable (memory : ∀ address, ν address)

@[simp] theorem run_pure (a : α) : (pure a : Reads κ ν α).run memory = a := rfl

@[simp] theorem run_word (address : κ) :
    (word address : Reads κ ν _).run memory = memory address := rfl

@[simp] theorem run_bind (x : Reads κ ν α) (f : α → Reads κ ν β) :
    (x >>= f).run memory = (f (x.run memory)).run memory := by
  induction x with
  | done a => rfl
  | read address next ih => exact ih (memory address)

theorem run_ite {p : Prop} [Decidable p] (x y : Reads κ ν α) :
    (if p then x else y).run memory = if p then x.run memory else y.run memory :=
  apply_ite (run memory) p x y

end Reads

end MxTasking.Verified
