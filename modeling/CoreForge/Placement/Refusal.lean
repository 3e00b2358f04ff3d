/-!
# Refused insertions

Why an item could not be inserted.
-/

namespace CoreForge

/-- The reason why an insertion is refused. -/
inductive Refusal
  /-- An item would end beyond the limit of the axis. -/
  | outOfBounds
  /-- The new item would start before the axis does. -/
  | negativeOffset
  /-- The items in front leave no room. -/
  | occupied
  | noSelection
  | invalidSelection (index : Nat)
deriving DecidableEq, Repr

namespace Refusal

/-- The reason in words. -/
def message : Refusal → String
  | .outOfBounds => "outside register bounds"
  | .negativeOffset => "negative offset"
  | .occupied => "already occupied"
  | .noSelection => "no item selected"
  | .invalidSelection index => "selected item " ++ toString index ++ " does not exist"

end Refusal

end CoreForge
