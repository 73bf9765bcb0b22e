/-
`serde_json::Value` and how the sources look into one: a field that is not
there reads as `null`, and a value that is not of the kind asked for as
`none`.
-/
import NekoGuard.Std.Text

namespace NekoGuard

inductive Json where
  | null
  | bool (b : Bool)
  | number (literal : Str)
  | string (s : Str)
  | array (values : List Json)
  | object (fields : List (Str × Json))

namespace Json

/-- `value[name]`. -/
def get (name : Str) : Json → Json
  | object fields => ((fields.find? fun f => f.1 == name).map (·.2)).getD null
  | _ => null

def asStr : Json → Option Str
  | string s => some s
  | _ => none

def asArray : Json → Option (List Json)
  | array values => some values
  | _ => none

/-! ## Objects made by the program -/

/-- `Map::insert`: the fields are in the order of their names. -/
def insertField (name : Str) (v : Json) : List (Str × Json) → List (Str × Json)
  | [] => [(name, v)]
  | f :: fs =>
    if name < f.1 then (name, v) :: f :: fs
    else if f.1 = name then (name, v) :: fs
    else f :: insertField name v fs

/-- `json!` of an object. -/
def ofFields (fields : List (Str × Json)) : Json := object (fields.foldl (fun fs f => insertField f.1 f.2 fs) [])

/-- `value[name] = v`, for an object. -/
def set (json : Json) (name : Str) (v : Json) : Json :=
  match json with
  | object fields => object (insertField name v fields)
  | json => json

theorem find?_insertField {name other : Str} (v : Json) (fields : List (Str × Json)) :
    (insertField name v fields).find? (fun f => f.1 == other) =
      if name = other then some (name, v) else fields.find? fun f => f.1 == other := by
  induction fields with
  | nil => by_cases h : name = other <;> simp [insertField, h]
  | cons f fs ih =>
    rw [insertField]
    split
    · by_cases h : name = other <;> simp [h]
    · split
      · next hname =>
        by_cases h : name = other <;> simp [hname, h]
      · next hname =>
        rw [List.find?_cons, ih, List.find?_cons]
        by_cases h : name = other
        · have hne : (f.1 == other) = false := by simpa [← h] using hname
          simp [h, hne]
        · simp [h]

theorem get_set_self (name : Str) (v : Json) (fields : List (Str × Json)) :
    ((object fields).set name v).get name = v := by
  simp [set, get, find?_insertField]

theorem get_set_ne {name other : Str} (h : name ≠ other) (v : Json) (fields : List (Str × Json)) :
    ((object fields).set name v).get other = (object fields).get other := by
  simp [set, get, find?_insertField, h]

mutual

/-- A value written out, when no string of it needs escapes. -/
def plain : Json → Str
  | null => "null".toList
  | bool b => if b then "true".toList else "false".toList
  | number literal => literal
  | string s => '"' :: s ++ ['"']
  | array values => '[' :: plainArray values ++ [']']
  | object fields => '{' :: plainObject fields ++ ['}']

def plainArray : List Json → Str
  | [] => []
  | [v] => plain v
  | v :: vs => plain v ++ ',' :: plainArray vs

def plainObject : List (Str × Json) → Str
  | [] => []
  | [(name, v)] => '"' :: name ++ '"' :: ':' :: plain v
  | (name, v) :: fields => '"' :: name ++ '"' :: ':' :: plain v ++ ',' :: plainObject fields

end

end Json

end NekoGuard
