import Mathlib.Logic.Function.Basic

/-! A medium: its life as a list of events, and what it reads as. -/
namespace ReconOS

/-- The life of a medium, newest event outermost: what it held at first, then writes and flushes. -/
inductive Disk (β : Type) where
  | fresh (held : Nat → β)
  | write (d : Disk β) (addr : Nat) (b : β)
  | flush (d : Disk β)

namespace Disk

variable {β : Type}

/-- What a read returns, a write cache included. -/
def contents : Disk β → Nat → β
  | fresh held => held
  | write d a b => Function.update d.contents a b
  | flush d => d.contents

@[simp] theorem contents_fresh (h : Nat → β) : (fresh h).contents = h := rfl

@[simp] theorem contents_write (d : Disk β) (a : Nat) (b : β) :
    (d.write a b).contents = Function.update d.contents a b := rfl

@[simp] theorem contents_flush (d : Disk β) : d.flush.contents = d.contents := rfl

end Disk

end ReconOS
