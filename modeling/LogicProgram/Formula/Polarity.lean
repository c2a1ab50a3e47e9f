import LogicProgram.Text.Basic

/-!
# Polarities

An occurrence of an atom is positive, negative or both, according to the
negations and implications above it. Polarities form a lattice under `join`.
-/

namespace LogicProgram

/-- The polarities under which something occurs. -/
structure Polarity where
  /-- There is a positive occurrence. -/
  positive : Bool
  /-- There is a negative occurrence. -/
  negative : Bool
deriving DecidableEq, Repr, Inhabited

namespace Polarity

/-- No occurrence. -/
def none : Polarity := ⟨false, false⟩

def onlyPositive : Polarity := ⟨true, false⟩

def onlyNegative : Polarity := ⟨false, true⟩

def both : Polarity := ⟨true, true⟩

/-- The polarity below a negation. -/
def flip (p : Polarity) : Polarity := ⟨p.negative, p.positive⟩

/-- The occurrences of either. -/
def join (p q : Polarity) : Polarity := ⟨p.positive || q.positive, p.negative || q.negative⟩

def text (p : Polarity) : Text :=
  match p.positive, p.negative with
  | true, true => "positive and negative"
  | true, false => "positive"
  | false, true => "negative"
  | false, false => "none"

theorem join_comm (p q : Polarity) : p.join q = q.join p := by
  simp [join, Bool.or_comm]

theorem join_assoc (p q r : Polarity) : (p.join q).join r = p.join (q.join r) := by
  simp [join, Bool.or_assoc]

end Polarity

end LogicProgram
