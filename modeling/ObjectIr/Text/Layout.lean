/-!
# Lists and columns

How lists of texts and column numbers are laid out.
-/

namespace ObjectIr.Text

/-- The items between brackets, separated by a comma and a space. -/
def bracketed (items : List String) : String := "[" ++ ", ".intercalate items ++ "]"

/-- A head and its fields, between parentheses. -/
def applied (head : String) (fields : List String) : String :=
  head ++ "(" ++ ", ".intercalate fields ++ ")"

/-- Right-aligned in a column of at least `width`. -/
def padded (width : Nat) (s : String) : String :=
  String.ofList (List.replicate (width - s.length) ' ') ++ s

end ObjectIr.Text
