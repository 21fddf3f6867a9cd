/-!
# JSON values

* `Json` is the type of values. An object keeps its members in the order in which they were written.
* `Json.put` adds a member; a repeated key keeps its first place and takes the last value.
* `Json.member?` looks a key up.
-/

namespace Spreadsheet

/-- A JSON value; a number is kept as written. -/
inductive Json where
  | null
  | bool (b : Bool)
  | number (text : String)
  | string (s : String)
  | array (items : List Json)
  | object (members : List (String × Json))

namespace Json

/-- The members with `key` set to `value`. -/
def put (members : List (String × Json)) (key : String) (value : Json) : List (String × Json) :=
  if members.any (·.1 == key) then
    members.map fun m => if m.1 == key then (key, value) else m
  else
    members ++ [(key, value)]

/-- The value of a member. -/
def member? (key : String) (members : List (String × Json)) : Option Json :=
  members.lookup key

/-- The text, if the value is one. -/
def string? : Json → Option String
  | string s => some s
  | _ => none

/-- The items, if the value is an array. -/
def array? : Json → Option (List Json)
  | array items => some items
  | _ => none

/-- The members, if the value is an object. -/
def object? : Json → Option (List (String × Json))
  | object members => some members
  | _ => none

end Json

end Spreadsheet
