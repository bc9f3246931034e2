/-!
# Faults of YAML texts

A text that is no single document is malformed. A document may also hold a scalar whose tag its text
does not fit, and a directive a number that is too long to be read.
-/

namespace ApiTypes.Yaml

/-- Why a scalar has no value of its tag, or a number of a directive none. -/
inductive ScalarFault
  /-- The text has the form of no number, date or character. -/
  | form
  | word
  | empty
  | size
  | noTime
  /-- A mapping stands where a point in time is read. -/
  | mapping
  /-- A decimal number that has too many digits to be read. -/
  | digits
  /-- The mappings that stand for a text lead around in a circle, and the search for it does not end. -/
  | endless
  deriving Repr, DecidableEq

inductive Fault
  | malformed
  | scalar (fault : ScalarFault)
  deriving Repr, DecidableEq

end ApiTypes.Yaml
