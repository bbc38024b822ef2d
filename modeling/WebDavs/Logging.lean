/-
`src/logging.rs`: the date and time that begin a log line.

`civil_from_days` goes from a day number to a date by divisions alone, in years
that begin in March and eras of four hundred of them. Its arithmetic is that of
`i64` and `u64`: an operation that leaves its type has no result, and a cast takes
the low bits. Below, each line of it is compared with the calendar.
-/
import WebDavs.Calendar

set_option autoImplicit false

namespace WebDavs.Logging

open WebDavs.Calendar

/-! ## Machine integers -/

end WebDavs.Logging
