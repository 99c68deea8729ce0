/-!
# Log records

What a compilation or a session reports along the way is a list of records, oldest first.
-/

set_option autoImplicit false

namespace TensorKernels

/-- The severity of a record. -/
inductive LogLevel
  | debug
  | info
  | warn
  deriving DecidableEq, Repr

/-- The name of a level. -/
def LogLevel.name : LogLevel → String
  | .debug => "DEBUG"
  | .info => "INFO"
  | .warn => "WARN"

/-- One line of a log. -/
structure LogRecord where
  level : LogLevel
  text : String
  deriving DecidableEq, Repr

/-- Records, oldest first. -/
abbrev Log := List LogRecord

end TensorKernels
