import Aggregation.Calendar
import Aggregation.Instant.Basic

/-!
# Clocks

A clock shows the date and the time of day at its offset from UTC. In a leap second
it shows the second 60.
-/

namespace Aggregation

/-- What a clock shows within a day. -/
structure TimeOfDay where
  hour : Nat
  minute : Nat
  second : Nat
  nanosecond : Nat
  deriving DecidableEq, Repr

/-- Whether the time exists in a day. The second 60 may follow any minute. -/
def TimeOfDay.isValid (time : TimeOfDay) : Bool :=
  time.hour < 24 && time.minute < 60 && time.second ≤ 60

namespace Instant

/-- The instant at which a clock shows a date and a time, if the clock is so many minutes
ahead of UTC. -/
def ofClock (date : Date) (time : TimeOfDay) (offset : Int) : Instant :=
  let leap := if time.second = 60 then 1000000000 else 0
  let inDay : Int := time.hour * 3600 + time.minute * 60 + min time.second 59
  ⟨date.dayNumber * 86400 + inDay - offset * 60, Fin.ofNat 2000000000 (time.nanosecond + leap)⟩

/-- The date in UTC. -/
def date (i : Instant) : Date := Date.ofDayNumber (i.seconds / 86400)

/-- The time of day in UTC. -/
def timeOfDay (i : Instant) : TimeOfDay :=
  let inDay := (i.seconds % 86400).toNat
  { hour := inDay / 3600
    minute := inDay / 60 % 60
    second := inDay % 60 + i.nanoseconds.val / 1000000000
    nanosecond := i.nanoseconds.val % 1000000000 }

end Instant
end Aggregation
