/-!
# Notices

What the library says about its own work, in the order in which it happens: a severity and a text.
-/

namespace Covering
set_option autoImplicit false

/-- How much a notice matters. -/
inductive Severity where
  | warning
  | info
  | debug
  | trace
  deriving DecidableEq

/-- A notice as a log shows it. -/
structure LogLine where
  severity : Severity
  text : String
  deriving DecidableEq

end Covering
