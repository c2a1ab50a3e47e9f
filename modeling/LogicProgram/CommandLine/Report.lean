import LogicProgram.Problem.Proof

/-!
# What a proof run looks like on a terminal

Every event of a run becomes a line or two. In the short form only statements
that are not proven are shown. Headings, verdicts and errors may be coloured.
-/

namespace LogicProgram.CommandLine

/-- How a text is made to stand out: what is written before and after it. -/
structure Style where
  opening : Text
  closing : Text
deriving DecidableEq, Repr

namespace Style

/-- Bold text in a colour. -/
def bold (color : Nat) : Style := ⟨"\x1b[" ++ Text.ofNat color ++ ";1m", "\x1b[0;22m"⟩

/-- For errors, and for what is not proven. -/
def failure : Style := bold 31

/-- For what is proven. -/
def success : Style := bold 32

/-- For what is being proven. -/
def subject : Style := bold 34

/-- For the direction of a proof. -/
def heading : Style := bold 36

/-- For what is assumed. -/
def faint : Style := ⟨"\x1b[2m", "\x1b[22m"⟩

def ofStatus (s : ProofStatus) : Style := if s = .proven then success else failure

/-- A text in a style, if output is coloured. -/
def paint (s : Style) (colored : Bool) (t : Text) : Text :=
  if colored then s.opening ++ t ++ s.closing else t

end Style

/-- How a run is shown. -/
structure Report where
  colored : Bool
  /-- Whether only failures are shown in detail. -/
  brief : Bool
deriving DecidableEq, Repr

namespace Report

/-- How the proof of a statement ended. -/
def verdictText (s : ProofStatus) (v : Verdict) : Text :=
  match s, v.seconds with
  | .proven, some x => "statement proven in " ++ x.hundredthsText ++ " seconds"
  | s, _ => "statement " ++ s.text

/-- What an event adds to the output, given the statement whose proof started
last. -/
def eventText (r : Report) (current : Text) : ProofEvent → Text
  | .directionStarted d _ =>
    Style.heading.paint r.colored ("performing " ++ d.text ++ " proof") ++ "\n"
  | .assumed part f _ =>
    if r.brief then []
    else "  - " ++ Style.faint.paint r.colored ("assuming " ++ part.singular ++ ":") ++ " " ++ f ++ "\n"
  | .started part f _ =>
    if r.brief then []
    else "  - " ++ Style.subject.paint r.colored ("verifying " ++ part.singular ++ ":") ++ " " ++ f ++ "\n"
  | .finished _ s v =>
    let line := "    → " ++ (Style.ofStatus s).paint r.colored (verdictText s v) ++ "\n"
    if !r.brief then line
    else if s = .proven then []
    else "  - " ++ current ++ "\n" ++ line
  | .directionFinished d s =>
    (if r.brief then ("\n" : Text) else []) ++ Style.heading.paint r.colored (d.text ++ " proof:")
      ++ " " ++ (Style.ofStatus s).paint r.colored s.text ++ "\n\n"

/-- The statement whose proof started last, after an event. -/
def nextCurrent (current : Text) : ProofEvent → Text
  | .started part f _ => part.singular ++ ": " ++ f
  | _ => current

/-- The output of a run from its events. -/
def eventsText (r : Report) (current : Text) : List ProofEvent → Text
  | [] => []
  | e :: rest => r.eventText current e ++ r.eventsText (nextCurrent current e) rest

/-- The last line of a verification. -/
def statusText (r : Report) (s : ProofStatus) : Text :=
  (Style.ofStatus s).paint r.colored ("verification " ++ s.text) ++ "\n"

def errorText (colored : Bool) (e : Error) : Text :=
  Style.failure.paint colored "error: " ++ e.message ++ "\n"

end Report

end LogicProgram.CommandLine
