import Mathlib.Logic.Function.Basic

/-! Records at addresses that are handed out in order and never reused. A record not
yet allocated holds whatever the memory there held, so an allocation that leaves a
member unassigned leaves that content in it. -/
namespace Phat
variable {α : Type}

structure Store (α : Type) where
  next : Nat
  get : Nat → α

namespace Store

/-- Take the next address and assign members of the record there. -/
def alloc (s : Store α) (init : α → α) : Store α where
  next := s.next + 1
  get := Function.update s.get s.next (init (s.get s.next))

def modify (s : Store α) (address : Nat) (f : α → α) : Store α :=
  { s with get := Function.update s.get address (f (s.get address)) }

@[simp] theorem next_alloc (s : Store α) (init : α → α) : (s.alloc init).next = s.next + 1 := rfl

@[simp] theorem get_alloc_self (s : Store α) (init : α → α) :
    (s.alloc init).get s.next = init (s.get s.next) := by
  simp [alloc]

theorem get_alloc_of_ne (s : Store α) (init : α → α) {address : Nat} (apart : address ≠ s.next) :
    (s.alloc init).get address = s.get address := by
  simp [alloc, apart]

@[simp] theorem next_modify (s : Store α) (address : Nat) (f : α → α) :
    (s.modify address f).next = s.next := rfl

@[simp] theorem get_modify_self (s : Store α) (address : Nat) (f : α → α) :
    (s.modify address f).get address = f (s.get address) := by
  simp [modify]

theorem get_modify_of_ne (s : Store α) (f : α → α) {address other : Nat} (apart : other ≠ address) :
    (s.modify address f).get other = s.get other := by
  simp [modify, apart]

/-- A member the update keeps is kept everywhere. -/
theorem get_modify_keep {β : Type} (s : Store α) (address : Nat) (f : α → α) (member : α → β)
    (kept : ∀ a, member (f a) = member a) (other : Nat) :
    member ((s.modify address f).get other) = member (s.get other) := by
  by_cases same : other = address
  · rw [same, get_modify_self, kept]
  · rw [get_modify_of_ne s f same]

end Store

end Phat
