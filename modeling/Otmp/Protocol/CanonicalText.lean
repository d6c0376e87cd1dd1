import Otmp.Protocol.Value

/-!
# The text of canonical JSON

A canonical value has one text: members in key order, no white space, and strings
with the shortest escapes. The reader's budgets count the bytes of this text.
-/

namespace Otmp

namespace CanonicalValue

open Foundation

/-- The escape of a character inside a string: short where there is a short one, hexadecimal for
other control characters, and the character itself otherwise. -/
def escapeChar (c : Char) : List Char :=
  if c = Char.ofNat 34 then [Char.ofNat 92, Char.ofNat 34]
  else if c = Char.ofNat 92 then [Char.ofNat 92, Char.ofNat 92]
  else if c = Char.ofNat 8 then [Char.ofNat 92, 'b']
  else if c = Char.ofNat 9 then [Char.ofNat 92, 't']
  else if c = Char.ofNat 10 then [Char.ofNat 92, 'n']
  else if c = Char.ofNat 12 then [Char.ofNat 92, 'f']
  else if c = Char.ofNat 13 then [Char.ofNat 92, 'r']
  else if c.toNat < 32 then [Char.ofNat 92, 'u'] ++ hexFixed 4 c.toNat
  else [c]

/-- A string in quotation marks, with its characters escaped. -/
def encodeString (s : String) : List Char :=
  [Char.ofNat 34] ++ s.toList.flatMap escapeChar ++ [Char.ofNat 34]

mutual

/-- The canonical text of a value: no blanks, integers in decimal, members in the order they have.
-/
def encode : CanonicalValue → List Char
  | .null => "null".toList
  | .bool true => "true".toList
  | .bool false => "false".toList
  | .integer n => decimalInt n
  | .string s => encodeString s
  | .array values => ['['] ++ encodeList values ++ [']']
  | .object members => [Char.ofNat 123] ++ encodeMembers members ++ [Char.ofNat 125]
termination_by structural value => value

/-- The texts of a list, separated by commas and without a trailing one. -/
def encodeList : List CanonicalValue → List Char
  | [] => []
  | value :: values =>
    match values with
    | [] => value.encode
    | _ :: _ => value.encode ++ [','] ++ encodeList values
termination_by structural values => values

/-- The texts of members, separated by commas and without a trailing one. -/
def encodeMembers : List (String × CanonicalValue) → List Char
  | [] => []
  | member :: members =>
    match members with
    | [] => encodeMember member
    | _ :: _ => encodeMember member ++ [','] ++ encodeMembers members
termination_by structural members => members

/-- The text of a member: the key as a string, a colon and the value. -/
def encodeMember : String × CanonicalValue → List Char
  | (key, value) => encodeString key ++ [':'] ++ value.encode
termination_by structural member => member

end

/-- The number of bytes of a text in UTF-8. -/
def byteLength (text : List Char) : ℕ := (text.map Char.utf8Size).sum

end CanonicalValue

end Otmp
