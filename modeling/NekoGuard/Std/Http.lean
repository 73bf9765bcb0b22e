/-
Requests, responses and bodies as hyper hands them over: header maps that
keep repeated fields in order, header values that are bytes, and bodies that
arrive frame by frame and may fail.
-/
import NekoGuard.Std.Text

namespace NekoGuard

inductive Method where
  | get
  | post
  | other (name : Str)
deriving DecidableEq, Repr

/-- Fields in order, names in lower case. -/
abbrev HeaderMap := List (Str × Bytes)

namespace Http

/-- `HeaderValue::to_str`: visible ASCII and tabs only. -/
def toStr (value : Bytes) : Option Str :=
  if value.all fun b => (32 ≤ b && b < 127) || b == 9 then
    some (value.map fun b => Char.ofNat b.toNat)
  else none

/-- `HeaderValue::from_str`: no control characters but the tab. -/
def fromStr (s : Str) : Option Bytes :=
  if (Text.bytes s).all fun b => (32 ≤ b && b != 127) || b == 9 then some (Text.bytes s) else none

/-- `headers.get(name)`: the first field of that name. -/
def get (headers : HeaderMap) (name : Str) : Option Bytes :=
  (headers.find? fun h => h.1 == name).map (·.2)

/-- `headers.get(name).and_then(|v| v.to_str().ok())`. -/
def getStr (headers : HeaderMap) (name : Str) : Option Str := (get headers name).bind toStr

/-- The header map without the fields of a name. -/
def remove (headers : HeaderMap) (name : Str) : HeaderMap := headers.filter fun h => h.1 != name

theorem get_remove_of_ne {headers : HeaderMap} {name other : Str} (h : other ≠ name) :
    get (remove headers name) other = get headers other := by
  induction headers with
  | nil => rfl
  | cons f fs ih =>
    simp only [get, remove] at ih ⊢
    by_cases hf : f.1 = name
    · have hne : (f.1 == other) = false := by simp [hf, Ne.symm h]
      rw [List.filter_cons_of_neg (by simp [hf]), List.find?_cons, hne]
      exact ih
    · rw [List.filter_cons_of_pos (by simp [hf]), List.find?_cons, List.find?_cons]
      split
      · rfl
      · exact ih

theorem get_remove_self (headers : HeaderMap) (name : Str) : get (remove headers name) name = none := by
  simp [get, remove]

theorem getStr_remove_of_ne {headers : HeaderMap} {name other : Str} (h : other ≠ name) :
    getStr (remove headers name) other = getStr headers other := by
  rw [getStr, getStr, get_remove_of_ne h]

/-! ## Bodies -/

/-- A body as it arrives: its data frames, and whether the stream then fails. -/
structure Incoming where
  frames : List Bytes
  fails : Bool
deriving DecidableEq, Repr

/-- All the bytes of a body. -/
def Incoming.data (body : Incoming) : Bytes := body.frames.flatten

/-- `Limited`, frame by frame: an error once a frame passes what is left of
the limit, or when the stream fails. -/
def collectFrames : Nat → List Bytes → Bool → Option Bytes
  | _, [], fails => if fails then none else some []
  | remaining, f :: fs, fails =>
    if remaining < f.length then none
    else (collectFrames (remaining - f.length) fs fails).map (f ++ ·)

/-- `Limited::new(body, limit).collect().await.ok()`. -/
def collectLimited (limit : Nat) (body : Incoming) : Option Bytes :=
  collectFrames limit body.frames body.fails

theorem collectFrames_eq (frames : List Bytes) (fails : Bool) (limit : Nat) :
    collectFrames limit frames fails =
      if fails = false ∧ frames.flatten.length ≤ limit then some frames.flatten else none := by
  induction frames generalizing limit with
  | nil => cases fails <;> simp [collectFrames]
  | cons f fs ih =>
    simp only [collectFrames, ih, List.flatten_cons, List.length_append]
    split
    · rw [if_neg fun h => by omega]
    · next hle =>
      have hiff : fs.flatten.length ≤ limit - f.length ↔ f.length + fs.flatten.length ≤ limit := by
        omega
      simp only [hiff]
      split <;> rfl

/-- **What `Limited` collects**: the whole body, when it does not fail and
is within the limit. -/
theorem collectLimited_eq (limit : Nat) (body : Incoming) :
    collectLimited limit body =
      if body.fails = false ∧ body.data.length ≤ limit then some body.data else none :=
  collectFrames_eq body.frames body.fails limit

end Http

/-- A request: `path` and `query` are the parts of its URI. -/
structure Request where
  method : Method
  path : Str
  query : Option Str
  headers : HeaderMap
  body : Http.Incoming
deriving DecidableEq, Repr

/-- `uri().path_and_query()`. -/
def Request.pathAndQuery (req : Request) : Str :=
  match req.query with
  | some q => req.path ++ '?' :: q
  | none => req.path

/-- A header of a request, as text. -/
def Request.header (req : Request) (name : String) : Option Str :=
  Http.getStr req.headers name.toList

structure Response where
  status : Nat
  headers : HeaderMap
  body : Bytes
deriving DecidableEq, Repr

end NekoGuard
