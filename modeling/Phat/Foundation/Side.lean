/-! The two sides of a node of a binary tree. -/
namespace Phat

inductive Side where
  | left
  | right
deriving DecidableEq

namespace Side

def opposite : Side → Side
  | .left => .right
  | .right => .left

@[simp] theorem opposite_opposite (side : Side) : side.opposite.opposite = side := by
  cases side <;> rfl

@[simp] theorem opposite_ne (side : Side) : side.opposite ≠ side := by
  cases side <;> exact Side.noConfusion

@[simp] theorem ne_opposite (side : Side) : side ≠ side.opposite := side.opposite_ne.symm

theorem eq_opposite {side side' : Side} (apart : side' ≠ side) : side' = side.opposite := by
  cases side <;> cases side' <;> first | rfl | exact absurd rfl apart

end Side

end Phat
