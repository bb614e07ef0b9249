import Mica.Table

/-! # Values

What expressions evaluate to, and the key under which a value's methods are found. Objects carry
no data of their own: an object is its class together with the number that tells it from every
other object.
-/
namespace Mica

/-- The number of a class. The first class loaded into a machine has number one. -/
structure ClassId where
  number : Int
deriving DecidableEq, Repr

namespace ClassId

instance : LT ClassId := ⟨fun a b => a.number < b.number⟩

instance : LE ClassId := ⟨fun a b => a.number ≤ b.number⟩

instance (a b : ClassId) : Decidable (a < b) := inferInstanceAs (Decidable (a.number < b.number))

instance (a b : ClassId) : Decidable (a ≤ b) := inferInstanceAs (Decidable (a.number ≤ b.number))

def display (id : ClassId) : String := toString id.number

end ClassId

/-- The key of a dispatch table: the kind of a value, and for an object also its class. -/
structure TypeKey where
  tag : String
  classId : Option ClassId
deriving DecidableEq, Repr

namespace TypeKey

def unit : TypeKey := ⟨"Unit", none⟩

def bool : TypeKey := ⟨"Bool", none⟩

def i32 : TypeKey := ⟨"I32", none⟩

def string : TypeKey := ⟨"String", none⟩

def object (id : ClassId) : TypeKey := ⟨"Object", some id⟩

def display (key : TypeKey) : String :=
  match key.classId with
  | none => key.tag
  | some id => s!"{key.tag}({id.display})"

end TypeKey

/-- The integers of 32 bits in two's complement. -/
structure I32 where
  toInt : Int
  lower : -2147483648 ≤ toInt
  upper : toInt ≤ 2147483647
deriving DecidableEq

namespace I32

def ofInt? (n : Int) : Option I32 :=
  if h : -2147483648 ≤ n ∧ n ≤ 2147483647 then some ⟨n, h.1, h.2⟩ else none

theorem ofInt?_toInt (i : I32) : ofInt? i.toInt = some i := by
  simp [ofInt?, i.lower, i.upper]

theorem toInt_of_ofInt? {n : Int} {i : I32} (h : ofInt? n = some i) : i.toInt = n := by
  unfold ofInt? at h
  split at h
  · exact Option.some.inj h ▸ rfl
  · exact absurd h (by simp)

theorem ofInt?_eq_none_iff {n : Int} :
    ofInt? n = none ↔ n < -2147483648 ∨ 2147483647 < n := by
  unfold ofInt?
  split <;> simp <;> omega

end I32

inductive Value where
  | unit
  | bool (flag : Bool)
  | i32 (number : I32)
  | string (text : String)
  | object (classId : ClassId) (identity : Nat)
deriving DecidableEq

namespace Value

def typeKey : Value → TypeKey
  | unit => .unit
  | bool _ => .bool
  | i32 _ => .i32
  | string _ => .string
  | object id _ => .object id

def display : Value → String
  | unit => "()"
  | bool true => "true"
  | bool false => "false"
  | i32 n => toString n.toInt
  | string s => "\"" ++ s ++ "\""
  | object id _ => s!"<object of class {id.display}>"

/-- The text shown to a user, who knows classes by name. -/
def render (names : Table ClassId String) : Value → String
  | object id identity =>
    match names.get? id with
    | some name => s!"<{name} object>"
    | none => (object id identity).display
  | value => value.display

end Value

end Mica
