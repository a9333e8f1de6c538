import Reshape.Error

/-!
# Ranges of parameters

A parameter must lie between two bounds, which are admitted themselves. The check needs no more than
a decidable relation `<`, so it serves integers, texts and doubles.
-/

namespace Reshape

/-- Accept a value that is neither below `minimum` nor above `maximum`; `display` writes values for
the report. -/
def inRange {α : Type} [LT α] [DecidableLT α] (display : α → String)
    (value minimum maximum : α) (name : String) : Except ConfigFault Unit :=
  if value < minimum ∨ maximum < value then
    .error (.outOfRange name (display minimum) (display maximum) (display value))
  else .ok ()

theorem inRange_eq_ok_iff {α : Type} [LT α] [DecidableLT α] {display : α → String}
    {value minimum maximum : α} {name : String} :
    inRange display value minimum maximum name = .ok () ↔
      ¬ value < minimum ∧ ¬ maximum < value := by
  unfold inRange
  split
  · next outside => exact ⟨nofun, fun inside => (outside.elim inside.1 inside.2).elim⟩
  · next inside => exact ⟨fun _ => not_or.mp inside, fun _ => rfl⟩

end Reshape
