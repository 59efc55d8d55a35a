/-! # Operators and their precedence

How strongly the forms with operands on both sides bind, and on which side two
of the same strength group.
-/

namespace Mim

/-- Binding strengths, from the weakest to the strongest. -/
inductive Prec where
  | bottom
  /-- The type after a literal. -/
  | ascription
  | where_
  | arrow
  /-- The domain of a function type. -/
  | pi
  | injection
  | application
  | union
  | extraction
  | primary
  deriving DecidableEq

namespace Prec

def all : List Prec :=
  [.bottom, .ascription, .where_, .arrow, .pi, .injection, .application, .union, .extraction,
    .primary]

/-- The strength as a number. -/
def power : Prec → Int
  | .bottom => -2
  | .ascription => -1
  | .where_ => 1
  | .arrow => 2
  | .pi => 3
  | .injection => 5
  | .application => 6
  | .union => 7
  | .extraction => 8
  | .primary => 127

instance : LE Prec := ⟨fun a b => a.power ≤ b.power⟩

instance : LT Prec := ⟨fun a b => a.power < b.power⟩

instance (a b : Prec) : Decidable (a ≤ b) := inferInstanceAs (Decidable (a.power ≤ b.power))

instance (a b : Prec) : Decidable (a < b) := inferInstanceAs (Decidable (a.power < b.power))

/-- The next stronger one. -/
def next : Prec → Prec
  | .bottom => .ascription
  | .ascription => .where_
  | .where_ => .arrow
  | .arrow => .pi
  | .pi => .injection
  | .injection => .application
  | .application => .union
  | .union => .extraction
  | .extraction => .primary
  | .primary => .primary

end Prec

/-- The side on which operators of one strength group. -/
inductive Assoc where
  | left
  | right
  deriving DecidableEq

/-- The forms with a left operand. -/
inductive Operator where
  | where_
  | arrow
  | injection
  /-- Juxtaposition. -/
  | application
  | explicitApplication
  | union
  | extraction
  deriving DecidableEq

namespace Operator

def all : List Operator :=
  [.where_, .arrow, .injection, .application, .explicitApplication, .union, .extraction]

def prec : Operator → Prec
  | .where_ => .where_
  | .arrow => .arrow
  | .injection => .injection
  | .application | .explicitApplication => .application
  | .union => .union
  | .extraction => .extraction

def assoc : Operator → Assoc
  | .arrow => .right
  | _ => .left

/-- The least strength of what a right operand may be. -/
def rightMin (op : Operator) : Prec :=
  match op.assoc with
  | .left => op.prec.next
  | .right => op.prec

end Operator

end Mim
