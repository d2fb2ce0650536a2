/-!
# Compound names

Names of several words, written with underscores between the words or with a capital at the start of
each.
-/

namespace Dataflow.Text

/-- Capitalises the next letter if `start` is set, and the first letter after every underscore, and
drops the underscores. -/
def camelFrom : (start : Bool) → List Char → List Char
  | _, [] => []
  | _, '_' :: cs => camelFrom true cs
  | true, c :: cs => c.toUpper :: camelFrom false cs
  | false, c :: cs => c :: camelFrom false cs

/-- The name with capitals in the place of underscores. -/
def camel (name : String) : String :=
  String.ofList (camelFrom true name.toList)

end Dataflow.Text
