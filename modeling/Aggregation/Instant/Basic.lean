/-!
# Instants

A point in time of the UTC scale, to the nanosecond. Within an inserted leap
second the count of seconds stays and the nanoseconds run on from `10 ^ 9`, so
that an instant in it differs from every instant of the next second.
-/

namespace Aggregation

/-- Whole seconds since 1970-01-01T00:00:00Z, and nanoseconds from there. -/
@[ext]
structure Instant where
  seconds : Int
  nanoseconds : Fin 2000000000
  deriving DecidableEq

namespace Instant

/-- Whether the instant lies within a leap second. -/
def inLeapSecond (i : Instant) : Bool := 1000000000 ≤ i.nanoseconds.val

end Instant
end Aggregation
