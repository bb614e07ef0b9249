import Mica.Machine

/-! # Inventories

What a machine holds, in orders that do not depend on how it came to hold it: names by their
characters, classes by number.
-/
namespace Mica

/-- Whether a list of names comes no later than another, the first difference deciding. -/
def namesInOrder : List String → List String → Bool
  | [], _ => true
  | _ :: _, [] => false
  | a :: as, b :: bs => a < b || (a == b && namesInOrder as bs)

namespace Machine

def methodNames (machine : Machine) (type : TypeKey) : List String :=
  ((machine.methods.get? type).getD .empty).keys.mergeSort (· ≤ ·)

def inventory (machine : Machine) : List (String × List String) :=
  (machine.methods.keys.map fun type => (type.display, machine.methodNames type)).mergeSort
    fun a b => namesInOrder (a.1 :: a.2) (b.1 :: b.2)

def roster (machine : Machine) : List (ClassId × String) :=
  machine.classNames.entries.mergeSort fun a b => a.1 ≤ b.1

end Machine

end Mica
