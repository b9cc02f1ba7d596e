import Mathlib.Data.Int.Notation

namespace Gateon.Go

-- Instants are nanoseconds since 1970, durations are nanoseconds.
def microsecond : Int := 1000
def millisecond : Int := 1000000
def second : Int := 1000000000
def minute : Int := 60*second
def hour : Int := 60*minute
def zeroTime : Int := -62135596800000000000

end Gateon.Go
