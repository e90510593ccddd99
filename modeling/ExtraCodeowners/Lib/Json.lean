import Mathlib.Data.Rat.Defs

/-!
# JSON values

The values `json.loads` returns, and the questions a reader of untrusted JSON
asks of them. A key that is absent reads as `null`.
-/

/-- A float is its exact value; the infinities and NaN have none. -/
inductive Json where
  | null
  | bool (value : Bool)
  | int (value : Int)
  | float (value : Option Rat)
  | string (value : List Char)
  | array (items : List Json)
  | object (fields : List (List Char × Json))

abbrev JsonObject := List (List Char × Json)

namespace Json

/-- `fields.get(key)` -/
def get (fields : JsonObject) (key : String) : Json :=
  ((fields.find? fun f => f.1 = key.toList).map Prod.snd).getD .null

/-- `key in fields` -/
def hasKey (fields : JsonObject) (key : String) : Bool := fields.any fun f => f.1 = key.toList

/-- `hash` is defined on every value but arrays and objects. -/
def hashable : Json → Bool
  | .array _ => false
  | .object _ => false
  | _ => true

/-- `bool(value)` -/
def truthy : Json → Bool
  | .null => false
  | .bool b => b
  | .int n => n ≠ 0
  | .float x => x ≠ some 0
  | .string s => s ≠ []
  | .array items => !items.isEmpty
  | .object fields => !fields.isEmpty

/-- `value or default` -/
def orElse (value default : Json) : Json := if value.truthy then value else default

/-- `value == text` -/
def isString (value : Json) (text : String) : Bool :=
  match value with
  | .string s => s = text.toList
  | _ => false

/-- `value == n and not isinstance(value, bool)` -/
def equalsInt (value : Json) (n : Int) : Bool :=
  match value with
  | .int m => m = n
  | .float (some x) => x = n
  | _ => false

/-- `value == text` for a text that is no literal. -/
def isText (value : Json) (text : List Char) : Bool :=
  match value with
  | .string s => s = text
  | _ => false

/-- `value == n`: a boolean is the number zero or one. -/
def equalsNumber (value : Json) (n : Int) : Bool :=
  match value with
  | .bool b => (if b then 1 else 0) = n
  | _ => value.equalsInt n

def isTrue : Json → Bool
  | .bool b => b
  | _ => false

def isFalse : Json → Bool
  | .bool b => !b
  | _ => false

theorem eq_of_isString {value : Json} {text : String} (h : value.isString text = true) :
    value = .string text.toList := by
  cases value with
  | string s => rw [of_decide_eq_true h]
  | _ => exact absurd h Bool.false_ne_true

end Json
