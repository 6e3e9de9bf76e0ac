-- SUMMARY: A stream that is accepted in pieces and leaves in pieces, and what stays true of it.
import Mathlib.Data.List.Basic

/-!
# Outboxes

An outbox is a stream cut in two: what has left it and what has not. It accepts
new elements at its end and transfers elements from its front. Whatever the
order of the two, the whole stream is what was accepted.
-/

/-- What has left a sender and what it still holds. -/
structure Outbox (β : Type*) where
  sent : List β
  unsent : List β

namespace Outbox

variable {β : Type*} {o : Outbox β} {d : List β} {n : Nat}

/-- The whole stream. -/
def total (o : Outbox β) : List β := o.sent ++ o.unsent

def accept (d : List β) (o : Outbox β) : Outbox β := { o with unsent := o.unsent ++ d }

/-- The next `n` elements leave. -/
def transfer (n : Nat) (o : Outbox β) : Outbox β :=
  { sent := o.sent ++ o.unsent.take n, unsent := o.unsent.drop n }

/-- Something was held, and nothing is held any more. -/
def Emptied (o o' : Outbox β) : Prop := o.unsent ≠ [] ∧ o'.unsent = []

instance (o o' : Outbox β) : Decidable (Emptied o o') :=
  decidable_of_iff (o.unsent.isEmpty = false ∧ o'.unsent.isEmpty = true) <| by
    simp [Emptied]

@[simp] theorem total_accept : (o.accept d).total = o.total ++ d := by
  simp [total, accept]

@[simp] theorem total_transfer : (o.transfer n).total = o.total := by
  simp [total, transfer]

@[simp] theorem accept_nil : o.accept [] = o := by
  simp [accept]

@[simp] theorem transfer_zero : o.transfer 0 = o := by
  simp [transfer]

end Outbox
