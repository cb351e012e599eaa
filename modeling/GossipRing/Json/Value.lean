/-!
# JSON values

Message bodies, settings patches and everything else that crosses the boundary of a node is a
JSON value. Integers keep their exact size, since incarnations and time stamps use the whole
range of 64-bit words; a number that is written with a fraction or an exponent is never read as
a count, so it is kept as the literal it was written with.

* **`Json`** — the values. An object lists its fields; `Json.field?` finds one by name.
* **`Json.object`** — an object with its fields in ascending order of their names and the last
  one of several with the same name.
* **`components`** — the parts of a record, from the object or from the array form.
-/

namespace GossipRing

/-- A JSON value. -/
inductive Json where
  | null
  | bool (value : Bool)
  | int (value : Int)
  /-- A number with a fraction or an exponent, or a negative zero, by its literal. -/
  | decimal (literal : String)
  | str (value : String)
  | arr (items : List Json)
  | obj (fields : List (String × Json))
  deriving Inhabited, BEq, Repr

namespace Json

/-- The fields of an object by ascending name, a later value replacing an earlier one. -/
def insertField (name : String) (value : Json) : List (String × Json) → List (String × Json)
  | [] => [(name, value)]
  | (other, kept) :: rest =>
    if name < other then (name, value) :: (other, kept) :: rest
    else if name = other then (name, value) :: rest
    else (other, kept) :: insertField name value rest

/-- The object with these fields; of several with one name the last counts. -/
def object (fields : List (String × Json)) : Json :=
  .obj (fields.foldl (fun acc field => insertField field.1 field.2 acc) [])

/-- The value of the first field with this name. -/
def lookup (name : String) : List (String × Json) → Option Json
  | [] => none
  | (other, value) :: rest => if other = name then some value else lookup name rest

@[simp] theorem lookup_nil (name : String) : lookup name [] = none := rfl

@[simp] theorem lookup_cons (name other : String) (value : Json) (rest : List (String × Json)) :
    lookup name ((other, value) :: rest) = if other = name then some value else lookup name rest :=
  rfl

/-- The value of the field with this name, if the value is an object that has one. -/
def field? (name : String) : Json → Option Json
  | .obj fields => lookup name fields
  | _ => none

/-- The object with its field of this name set to the value; other values are left alone. -/
def setField (j : Json) (name : String) (value : Json) : Json :=
  match j with
  | .obj fields => .obj (insertField name value fields)
  | other => other

/-- The parts of a record whose fields have these names, `none` for one that is missing. An
object may have further fields; an array gives the fields in order and may stop early, but it
may not be longer than the record. -/
def components (names : List String) : Json → Option (List (Option Json))
  | .obj fields => some (names.map (fun name => lookup name fields))
  | .arr items =>
    if items.length ≤ names.length then
      some (items.map some ++ List.replicate (names.length - items.length) none)
    else none
  | _ => none

end Json

end GossipRing
