import TraceDispute.Json.Binary64

/-!
# JSON values

Values as a node sends them.  The members of an object are kept sorted by name,
each name once; `text` is the compact form.
-/

namespace TraceDispute

namespace Json

/-- A number: whole and not negative, whole and negative, or of double precision. -/
inductive Number where
  | natural (value : Nat)
  | negated (value : Nat)
  | double (value : Binary64)
deriving DecidableEq, Repr

/-- The text of a number. -/
def Number.text : Number → String
  | .natural value => toString value
  | .negated value => s!"-{value}"
  | .double value => value.text

end Json

/-- A JSON value. -/
inductive Json where
  | null
  | bool (value : Bool)
  | number (value : Json.Number)
  | string (value : String)
  | array (items : List Json)
  | object (members : List (String × Json))

namespace Json

/-- Adds a member to sorted members; a name that is there already gets the new value. -/
def insertMember (name : String) (value : Json) : List (String × Json) → List (String × Json)
  | [] => [(name, value)]
  | (n, v) :: rest =>
    if name = n then (name, value) :: rest
    else if name < n then (name, value) :: (n, v) :: rest
    else (n, v) :: insertMember name value rest

/-- The object with these members; of members with the same name the last stays. -/
def ofMembers (members : List (String × Json)) : Json :=
  .object (members.foldl (fun sorted m => insertMember m.1 m.2 sorted) [])

/-- The member of an object with this name; other values have no members. -/
def get? (name : String) : Json → Option Json
  | .object members => members.lookup name
  | _ => none

/-- The text of a string value, if the value is one. -/
def string? : Json → Option String
  | .string value => some value
  | _ => none

/-! ## Text -/

/-- The hexadecimal digits of a control character, four of them. -/
def controlCode (c : Char) : List Char :=
  ['0', '0', if c.toNat < 16 then '0' else '1', Nat.digitChar (c.toNat % 16)]

/-- A character of a string: quotes, backslashes and control characters are
escaped and nothing else is. -/
def escape (c : Char) : List Char :=
  if c = '"' then ['\\', '"']
  else if c = '\\' then ['\\', '\\']
  else if c = '\n' then ['\\', 'n']
  else if c = '\r' then ['\\', 'r']
  else if c = '\t' then ['\\', 't']
  else if c.toNat = 8 then ['\\', 'b']
  else if c.toNat = 12 then ['\\', 'f']
  else if c.toNat < 32 then '\\' :: 'u' :: controlCode c
  else [c]

/-- A string in quotes. -/
def quote (s : String) : String :=
  String.ofList ('"' :: (s.toList.flatMap escape ++ ['"']))

mutual

/-- The compact text of a value. -/
def text : Json → String
  | .null => "null"
  | .bool true => "true"
  | .bool false => "false"
  | .number value => value.text
  | .string value => quote value
  | .array items => "[" ++ String.intercalate "," (itemTexts items) ++ "]"
  | .object members => "\x7b" ++ String.intercalate "," (memberTexts members) ++ "\x7d"

/-- The texts of the items of an array. -/
def itemTexts : List Json → List String
  | [] => []
  | item :: rest => text item :: itemTexts rest

/-- The texts of the members of an object. -/
def memberTexts : List (String × Json) → List String
  | [] => []
  | (name, value) :: rest => (quote name ++ ":" ++ text value) :: memberTexts rest

end

end Json

end TraceDispute
