import ScriptLoader.Number.Shortest

/-!
# Values

What executing code returns, receives and stores in the global scope. Numbers are doubles and
compare as such: a NaN differs from itself, and the two zeros are equal.
-/

namespace ScriptLoader

/-- A value produced or consumed by executing code. -/
inductive Value where
  | undefined
  | null
  | boolean (b : Bool)
  | number (n : Float)
  | string (s : String)
  | array (items : List Value)
  | object (members : List (String × Value))
  deriving Inhabited

namespace Value

def isUndefined : Value → Bool
  | undefined => true
  | _ => false

def string? : Value → Option String
  | string s => some s
  | _ => none

mutual

/-- The display text: a string stands for itself, an array is bracketed, an object is opaque. -/
def display : Value → String
  | undefined => "undefined"
  | null => "null"
  | boolean b => if b then "true" else "false"
  | number n => Shortest.render n.toBits
  | string s => s
  | array items => "[" ++ displayItems items ++ "]"
  | object _ => "[object Object]"

/-- The display texts of array items, separated by a comma and a space. -/
def displayItems : List Value → String
  | [] => ""
  | [v] => v.display
  | v :: w :: rest => v.display ++ ", " ++ displayItems (w :: rest)

end

mutual

/-- Equality: numbers as doubles, arrays in order, objects by member. -/
def equal : Value → Value → Bool
  | undefined, undefined => true
  | null, null => true
  | boolean a, boolean b => a == b
  | number a, number b => a == b
  | string a, string b => a == b
  | array a, array b => equalItems a b
  | object a, object b => a.length == b.length && equalMembers a b
  | _, _ => false

def equalItems : List Value → List Value → Bool
  | [], [] => true
  | v :: vs, w :: ws => equal v w && equalItems vs ws
  | _, _ => false

/-- Whether every member on the left has an equal one of the same name on the right. -/
def equalMembers : List (String × Value) → List (String × Value) → Bool
  | [], _ => true
  | (name, v) :: rest, others =>
    (match others.lookup name with
      | some w => equal v w
      | none => false) && equalMembers rest others

end

/-- One more than a number; one for anything else. -/
def increment : Option Value → Value
  | some (number n) => number (n + 1)
  | _ => number 1

end Value

end ScriptLoader
