/-
  Badges (aegir-ipc, `badge.h`): what the kernel reports of a caller.

  A badge with bit 62 set belongs to a user, whose row in the user database it carries; one
  with it clear belongs to the system.
-/
import Mathlib

namespace Aegir.Ipc

/-- `is_user_badge`: bit 62. -/
def isUserBadge (badge : ℕ) : Bool := badge.testBit 62

/-- `user_index`: bits 24 to 61. -/
def userIndex (badge : ℕ) : ℕ := badge / 2 ^ 24 % 2 ^ 38

end Aegir.Ipc
