import MaxPlus.Element.Basic
import MaxPlus.Weight.Binary64

/-!
Numbers as elements.

A plain number becomes the tangible element of the nearest double, ties to even; an element is
taken as it is. Integers of up to 32 bits and single-precision numbers are doubles exactly.
-/

set_option autoImplicit false
set_option relaxedAutoImplicit false

namespace MaxPlus

/-- The types whose values are read as elements with weights in `W`. -/
class ToElement (α : Type) (W : outParam Type) where
  /-- The element of a value, if its weight is supported. -/
  toElement : α → Except (Unsupported W) (Element W)

namespace ToElement

instance {W : Type} : ToElement (Element W) W := ⟨.ok⟩

instance : ToElement Float Float := ⟨Element.tangible⟩

instance : ToElement Float32 Float := ⟨fun x => Element.tangible x.toFloat⟩

def ofInt (k : Int) : Except (Unsupported Float) (Element Float) :=
  Element.tangible (Float.ofInt k)

instance : ToElement Int8 Float := ⟨fun x => ofInt x.toInt⟩

instance : ToElement Int16 Float := ⟨fun x => ofInt x.toInt⟩

instance : ToElement Int32 Float := ⟨fun x => ofInt x.toInt⟩

instance : ToElement Int64 Float := ⟨fun x => ofInt x.toInt⟩

instance : ToElement UInt8 Float := ⟨fun x => ofInt x.toNat⟩

instance : ToElement UInt16 Float := ⟨fun x => ofInt x.toNat⟩

instance : ToElement UInt32 Float := ⟨fun x => ofInt x.toNat⟩

instance : ToElement UInt64 Float := ⟨fun x => ofInt x.toNat⟩

variable {α W : Type} [ToElement α W]

/-- Converts the values from the first one on; the first failure is the outcome. -/
def collect {n : Nat} (xs : Vector α n) : Except (Unsupported W) (Vector (Element W) n) :=
  xs.mapM toElement

def toElements (xs : List α) : Except (Unsupported W) (List (Element W)) :=
  (collect ⟨xs.toArray, List.size_toArray⟩).map Vector.toList

end ToElement

end MaxPlus
