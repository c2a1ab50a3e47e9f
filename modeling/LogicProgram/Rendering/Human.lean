import LogicProgram.Rendering.Namer
import LogicProgram.Text.Quoted

/-!
# Formulas for people

Formulas in the notation of specifications, with parentheses only where the
grammar needs them. Levels say how tightly something binds, the tightest first.
-/

namespace LogicProgram

namespace Human

/-- A text in parentheses if they are needed. -/
def parenthesized (needed : Bool) (t : Text) : Text := if needed then "(" ++ t ++ ")" else t

/-- How tightly an operator binds. -/
def operatorLevel : Term.Operator → Nat
  | .power => 2
  | .multiply | .divide | .modulo => 3
  | .add | .subtract => 4

/-- How tightly a term binds. -/
def termLevel : Term → Nat
  | .integer value => if value < 0 then 1 else 0
  | .unary .negative _ => 1
  | .binary op _ _ => operatorLevel op
  | .interval _ _ => 5
  | _ => 0

/-- Whether the left operand needs parentheses; powers group to the right. -/
def leftNeedsParentheses (op : Term.Operator) (left : Term) : Bool :=
  if op = .power then operatorLevel op ≤ termLevel left else operatorLevel op < termLevel left

/-- Whether the right operand needs parentheses. -/
def rightNeedsParentheses (op : Term.Operator) (right : Term) : Bool :=
  if op = .power then operatorLevel op < termLevel right else operatorLevel op ≤ termLevel right

/-- A name before its arguments. -/
def application (name : Text) (args : List Text) : Text :=
  if args.isEmpty then name else name ++ "(" ++ Text.join ", " args ++ ")"

mutual

/-- A term in the notation of specifications. -/
def term (r : Registry) : Term → Naming Text
  | .integer value => return Text.ofInt value
  | .boolean true => return "#true"
  | .boolean false => return "#false"
  | .string value => return Text.quote value
  | .infimum => return "#inf"
  | .supremum => return "#sup"
  | .variable v => Naming.nameOf r v
  | .function name args => return application name (← terms r args)
  | .unary .absolute arg => return "|" ++ (← term r arg) ++ "|"
  | .unary .negative arg => return "-" ++ parenthesized (0 < termLevel arg) (← term r arg)
  | .binary op left right => do
    let l ← term r left
    let s ← term r right
    return parenthesized (leftNeedsParentheses op left) l ++ " " ++ op.text ++ " "
      ++ parenthesized (rightNeedsParentheses op right) s
  | .interval lower upper => do
    let l ← term r lower
    let u ← term r upper
    return parenthesized (5 ≤ termLevel lower) l ++ ".." ++ parenthesized (5 ≤ termLevel upper) u

def terms (r : Registry) : List Term → Naming (List Text)
  | [] => return []
  | t :: rest => return (← term r t) :: (← terms r rest)

end

/-- How tightly a connective binds. -/
def connectiveLevel : Connective → Nat
  | .and => 2
  | .or => 3
  | .iff => 5

/-- How tightly a formula binds. -/
def formulaLevel : Formula → Nat
  | .boolean _ | .compare _ _ _ | .atom _ _ => 0
  | .not _ | .quantified _ _ _ => 1
  | .implies _ _ => 4
  | .join connective _ => connectiveLevel connective

/-- A connective between two formulas. -/
def connectiveText : Connective → Text
  | .and => " and "
  | .or => " or "
  | .iff => " <-> "

/-- A connective of no formulas. -/
def emptyText : Connective → Text
  | .and | .iff => "#true"
  | .or => "#false"

def quantifierText : Quantifier → Text
  | .existential => "exists"
  | .universal => "forall"

/-- Whether the body of a quantifier needs parentheses. A comparison does, since
it could start with a variable that would be taken for one of the list. -/
def bodyNeedsParentheses : Formula → Bool
  | .compare _ _ _ => true
  | f => 1 < formulaLevel f

/-- The names of the variables that a quantifier lists, each after a blank. -/
def parameters (r : Registry) : List Variable → Naming Text
  | [] => return []
  | v :: rest => do
    let name ← Naming.nameOf r v
    return " " ++ name ++ (← parameters r rest)

mutual

/-- A formula in the notation of specifications. -/
def formula (r : Registry) : Formula → Naming Text
  | .boolean true => return "#true"
  | .boolean false => return "#false"
  | .compare op left right => do
    let l ← term r left
    let s ← term r right
    return l ++ " " ++ op.text ++ " " ++ s
  | .atom name args => return application name (← terms r args)
  | .not arg => return "not " ++ parenthesized (1 < formulaLevel arg) (← formula r arg)
  | .implies antecedent consequent => do
    let a ← formula r antecedent
    let c ← formula r consequent
    return parenthesized (4 ≤ formulaLevel antecedent) a ++ " -> "
      ++ parenthesized (4 ≤ formulaLevel consequent) c
  | .join connective args => do
    if args.isEmpty then return emptyText connective
    return Text.join (connectiveText connective) (← members r (connectiveLevel connective) args)
  | .quantified quantifier params body => do
    let names ← parameters r params
    let b ← formula r body
    return quantifierText quantifier ++ names ++ " " ++ parenthesized (bodyNeedsParentheses body) b

/-- The formulas that a connective of a level joins. -/
def members (r : Registry) (level : Nat) : List Formula → Naming (List Text)
  | [] => return []
  | f :: rest => do
    let t ← formula r f
    return parenthesized (level ≤ formulaLevel f) t :: (← members r level rest)

end

end Human

/-- A formula in the notation of specifications. -/
def Formula.human (r : Registry) (f : Formula) : Except Error Text := (Human.formula r f).fresh

end LogicProgram
