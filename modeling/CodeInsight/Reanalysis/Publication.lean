/-
# Publications

The newest snapshot of a document is published in one place. Readers either look
at it, or keep a receiver, which remembers which publication its holder has seen.
A reader may also wait; a wait that is over need not have found a snapshot.
-/

namespace CodeInsight

/-- The newest value, and how many times a value was published. -/
structure Publication (σ : Type) where
  value : Option σ
  revision : Nat

/-- The memory of which publication was seen last. -/
structure Receiver where
  seen : Nat
  deriving DecidableEq, Repr

/-- What a wait has come to. -/
inductive Wait (σ : Type) where
  | pending
  | over (found : Option σ)

namespace Publication

variable {σ : Type}

/-- Nothing published so far. -/
def empty : Publication σ := ⟨none, 0⟩

/-- A new value takes the place of the old one. -/
def publish (p : Publication σ) (value : σ) : Publication σ := ⟨some value, p.revision + 1⟩

/-- A receiver to whom all that was published so far counts as seen. -/
def subscribe (p : Publication σ) : Receiver := ⟨p.revision⟩

/-- Whether something was published that a receiver has not seen. -/
def hasChanged (p : Publication σ) (r : Receiver) : Bool := r.seen ≠ p.revision

end Publication

end CodeInsight
