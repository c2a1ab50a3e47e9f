import LogicProgram.Rule.Basic
import LogicProgram.Text.Quoted

/-!
# Printing rules

Every operation of two terms is printed in parentheses, so the printed form
does not rely on precedence.
-/

namespace LogicProgram.Rule

/-- The negation before a literal. -/
def Sign.text : Sign → Text
  | plain => ""
  | negated => "not "
  | doublyNegated => "not not "

def Operator.text : Operator → Text
  | add => "+"
  | subtract => "-"
  | multiply => "*"
  | divide => "/"
  | modulo => "\\"
  | power => "**"
  | bitAnd => "&"
  | bitOr => "?"
  | bitXor => "^"

mutual

def Term.text : Term → Text
  | .number value => Text.ofInt value
  | .string value => Text.quote value
  | .infimum => "#inf"
  | .supremum => "#sup"
  | .variable name => name
  | .function external name args =>
    (if external then ("@" : Text) else "") ++ name
      ++ (if args.isEmpty then ("" : Text) else "(" ++ Text.join ", " (Term.texts args) ++ ")")
  | .binary op left right => "(" ++ left.text ++ " " ++ op.text ++ " " ++ right.text ++ ")"
  | .unary .minus arg => "-" ++ arg.text
  | .unary .absolute arg => "|" ++ arg.text ++ "|"
  | .unary .bitNegation arg => "~" ++ arg.text
  | .interval lower upper => lower.text ++ ".." ++ upper.text
  | .pool args => "(" ++ Text.join "; " (Term.texts args) ++ ")"

def Term.texts : List Term → List Text
  | [] => []
  | t :: r => t.text :: Term.texts r

end

def Atom.text : Atom → Text
  | .boolean true => "#true"
  | .boolean false => "#false"
  | .symbolic term => term.text
  | .comparison op left right => left.text ++ " " ++ op.text ++ " " ++ right.text

def Literal.text (l : Literal) : Text := l.sign.text ++ l.atom.text

/-- A literal with its condition as it is printed. -/
def ConditionalLiteral.text (c : ConditionalLiteral) : Text :=
  if c.condition.isEmpty then c.literal.text
  else c.literal.text ++ " : " ++ Text.join ", " (c.condition.map Literal.text)

/-- The elements of a choice between braces. -/
def choiceText (elements : List ConditionalLiteral) : Text :=
  "\x7b" ++ Text.join "; " (elements.map ConditionalLiteral.text) ++ "\x7d"

def Head.text : Head → Text
  | .literal l => l.text
  | .choice left right elements =>
    (match left with
      | some guard => guard.term.text ++ " " ++ guard.op.text ++ " "
      | none => []) ++ choiceText elements ++
    (match right with
      | some guard => " " ++ guard.op.text ++ " " ++ guard.term.text
      | none => [])
  | .disjunction elements => Text.join "; " (elements.map ConditionalLiteral.text)

/-- A body element as it is printed; an aggregate shows no elements. -/
def BodyElement.text : BodyElement → Text
  | .literal l => l.text
  | .aggregate function => "#" ++ function ++ " \x7b  \x7d"
  | .conditional c => c.text

def BodyLiteral.text (b : BodyLiteral) : Text := b.sign.text ++ b.element.text

def text (r : Rule) : Text :=
  if r.body.isEmpty then r.head.text ++ "."
  else r.head.text ++ " :- " ++ Text.join ", " (r.body.map BodyLiteral.text) ++ "."

end LogicProgram.Rule
