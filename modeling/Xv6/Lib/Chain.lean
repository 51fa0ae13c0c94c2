import Mathlib.Data.List.Basic

/-!
# Chains of pointers

A singly linked list whose nodes lie in some memory: `load` reads the value and the next pointer
of a node, or fails. `Chain` names the nodes that a pointer leads to, in order, up to the null
pointer.
-/

namespace Xv6.Lib

variable {α β : Type}

/-- The pointer `a` leads to the nodes of `l`, given with their values. -/
inductive Chain (load : α → Option (β × α)) (null : α) : α → List (α × β) → Prop
  | nil : Chain load null null []
  | cons {a b : α} {v : β} {l : List (α × β)} (hne : a ≠ null) (hload : load a = some (v, b))
      (htail : Chain load null b l) : Chain load null a ((a, v) :: l)

end Xv6.Lib
