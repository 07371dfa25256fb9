import Reckoner.FormulaError

/-! Operators, and the symbols of a formula.

The five operators bind by precedence: powers before products and quotients,
these before sums and differences. Powers group to the right, the others to the
left. Parentheses and commas are symbols too: they hold a formula together but
compute nothing. -/
namespace Reckoner

inductive Operator where
  | add
  | subtract
  | multiply
  | divide
  | power
deriving DecidableEq, Repr

inductive Associativity where
  | left
  | right
deriving DecidableEq, Repr

inductive Symbol where
  | operator (o : Operator)
  | leftParen
  | rightParen
  | comma
deriving DecidableEq, Repr

namespace Operator

def char : Operator → Char
  | add => '+'
  | subtract => '-'
  | multiply => '*'
  | divide => '/'
  | power => '^'

def precedence : Operator → Nat
  | power => 4
  | multiply | divide => 3
  | add | subtract => 2

def associativity : Operator → Associativity
  | power => .right
  | _ => .left

/-- Division by zero and the powers of special values follow IEEE 754. -/
def apply : Operator → Float → Float → Float
  | add, x, y => x + y
  | subtract, x, y => x - y
  | multiply, x, y => x * y
  | divide, x, y => x / y
  | power, x, y => x.pow y

/-- `waiting`, which stands before `o`, is applied before `o` gets its right
operand. -/
def yieldsTo (o waiting : Operator) : Bool :=
  match o.associativity with
  | .left => o.precedence ≤ waiting.precedence
  | .right => o.precedence < waiting.precedence

end Operator

namespace Symbol

def char : Symbol → Char
  | operator o => o.char
  | leftParen => '('
  | rightParen => ')'
  | comma => ','

def all : List Symbol :=
  [operator .add, operator .subtract, operator .multiply, operator .divide, operator .power,
    leftParen, rightParen, comma]

def ofChar? (c : Char) : Option Symbol :=
  all.find? fun s => s.char == c

/-- The symbol of a character, or what is wrong with the character. -/
def ofChar (c : Char) : Except FormulaError Symbol :=
  match ofChar? c with
  | some s => .ok s
  | none => .error (.invalidCharacter c)

def text (s : Symbol) : String := String.singleton s.char

/-- What groups binds least. -/
def precedence : Symbol → Nat
  | operator o => o.precedence
  | leftParen | rightParen | comma => 1

def associativity : Symbol → Associativity
  | operator o => o.associativity
  | leftParen | rightParen | comma => .left

/-- The order of two symbols by precedence and associativity; of two operators it
is that of `Operator.yieldsTo`. -/
def yieldsTo (s waiting : Symbol) : Bool :=
  match s.associativity with
  | .left => s.precedence ≤ waiting.precedence
  | .right => s.precedence < waiting.precedence

def apply : Symbol → Float → Float → Except FormulaError Float
  | operator o, x, y => .ok (o.apply x y)
  | s, _, _ => .error (.notAnOperator s.text)

theorem yieldsTo_operator (o waiting : Operator) :
    (operator o).yieldsTo (operator waiting) = o.yieldsTo waiting := rfl

/-- No operator makes an open parenthesis give way. -/
theorem yieldsTo_leftParen (o : Operator) : (operator o).yieldsTo leftParen = false := by
  cases o <;> rfl

theorem ofChar?_eq_some_iff {c : Char} {s : Symbol} : ofChar? c = some s ↔ s.char = c := by
  constructor
  · intro h
    simpa using List.find?_some h
  · rintro rfl
    rcases s with (_ | _ | _ | _ | _) | _ | _ | _ <;> decide

end Symbol
end Reckoner
