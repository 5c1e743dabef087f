import MaxPlus.Weight.Basic

/-!
Exact weights: the integers of every size, and `-∞`.

No sum rounds and none leaves the type, so this is the arithmetic in which the laws of the
algebra hold without conditions.
-/

set_option autoImplicit false
set_option relaxedAutoImplicit false

namespace MaxPlus

inductive Exact where
  | bot
  | int (k : Int)
  deriving DecidableEq

namespace Exact

/-- Adds the integers; `-∞` absorbs. -/
def add : Exact → Exact → Exact
  | int a, int b => int (a + b)
  | _, _ => bot

/-- Negates the integer; `-∞` has no negative and stays. -/
def neg : Exact → Exact
  | int a => int (-a)
  | bot => bot

def lt : Exact → Exact → Bool
  | int a, int b => decide (a < b)
  | bot, int _ => true
  | _, bot => false

def text : Exact → String
  | int a => toString a
  | bot => "-∞"

instance : Weight Exact where
  add := add
  neg := neg
  beq a b := decide (a = b)
  bot := bot
  unit := int 0
  lt := lt
  isTop _ := false
  isUnordered _ := false
  text := text

/-- Every exact weight may be carried by an element. -/
@[simp] theorem supported_eq_true (v : Exact) : Weight.supported v = true := rfl

end Exact

end MaxPlus
