/-!
Instants in milliseconds since 1970 began, in universal time.
-/
namespace SkipChain.Instant

/-- Whether an instant falls into the years that calendars of this library reach: from -262143 to
262142. -/
def hasDate (millis : Int64) : Bool :=
  -8334601228800000 ≤ millis.toInt && millis.toInt ≤ 8210266876799999

/-- The whole seconds before an instant and the milliseconds after those, if it has a date. -/
def seconds? (millis : Int64) : Option (Int × Int) :=
  if hasDate millis then some (millis.toInt.fdiv 1000, millis.toInt.fmod 1000) else none

end SkipChain.Instant
