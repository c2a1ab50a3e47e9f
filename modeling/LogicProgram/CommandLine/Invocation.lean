import LogicProgram.CommandLine.Flags
import LogicProgram.Number.Duration
import LogicProgram.Number.Literal

/-!
# What the command line asks for

There are three commands: one writes a configuration file, one prints the
first-order reading of a program, and one verifies a program against a
specification. Some flags belong to all of them.
-/

namespace LogicProgram.CommandLine

structure Options where
  /-- The configuration file, empty for the standard one. -/
  config : Text
  /-- After how many nanoseconds provers are no longer started; never if it is
  not positive. -/
  timeout : Int
  /-- Whether more is logged. -/
  verbose : Bool
  /-- When output is coloured, if that is asked for. -/
  color : Option Text
  help : Bool
  format : Text
  /-- Whether completed definitions are left as they are. -/
  noSimplify : Bool
  /-- The direction of proofs, if that is asked for. -/
  direction : Option Text
  /-- The command of the prover, empty for the configured one. -/
  prover : Text
  /-- The time limit of the prover in seconds, if that is asked for. -/
  timeLimit : Option Int64
  /-- Whether only failures are shown in detail. -/
  progress : Bool
  /-- Whether the files are watched. -/
  watch : Bool
deriving DecidableEq, Repr, Inhabited

namespace Options

/-- The options if no flag is given. -/
def standard : Options :=
  { config := [], timeout := 0, verbose := false, color := none, help := false
    format := "human-readable", noSimplify := false, direction := none, prover := []
    timeLimit := none, progress := false, watch := false }

/-- The words for truth values of switches. -/
def switchWords : List (Text × Bool) :=
  ["1", "t", "T", "TRUE", "true", "True"].map (fun s => (Text.ofString s, true))
    ++ ["0", "f", "F", "FALSE", "false", "False"].map (fun s => (Text.ofString s, false))

def switch (name : Text) (letter : Option Char) (set : Options → Bool → Options) : Flag Options :=
  { name, letter, isSwitch := true
    set := fun t o => (switchWords.find? (·.1 == t)).map fun (_, b) => set o b }

def valued {β : Type} (name : Text) (letter : Option Char) (read : Text → Option β)
    (set : Options → β → Options) : Flag Options :=
  { name, letter, isSwitch := false, set := fun t o => (read t).map (set o) }

def globalFlags : List (Flag Options) :=
  [valued "config" none some ({ · with config := · }),
    valued "timeout" none Duration.parse? ({ · with timeout := · }),
    switch "verbose" (some 'v') ({ · with verbose := · }),
    valued "color" none some (fun o t => { o with color := some t })]

def helpFlag : Flag Options := switch "help" (some 'h') ({ · with help := · })

/-- The flag to leave definitions as they are. -/
def noSimplifyFlag : Flag Options := switch "no-simplify" none ({ · with noSimplify := · })

def printFlags : List (Flag Options) :=
  [valued "output-format" (some 'o') some ({ · with format := · }), noSimplifyFlag]

def verifyFlags : List (Flag Options) :=
  [valued "direction" (some 'd') some (fun o t => { o with direction := some t }),
    noSimplifyFlag,
    valued "prover" none some ({ · with prover := · }),
    valued "time-limit" none Literal.integer? (fun o i => { o with timeLimit := some i }),
    switch "progress" none ({ · with progress := · }),
    switch "watch" (some 'w') ({ · with watch := · })]

end Options

/-- What the command line asks for. -/
inductive Invocation where
  /-- Something that is not understood. -/
  | invalid
  | help
  /-- Writing a configuration file. -/
  | init (options : Options)
  /-- Printing the first-order reading of a program. -/
  | print (options : Options) (program : Text)
  /-- Verifying a program against a specification. -/
  | verify (options : Options) (program specification : Text)
deriving DecidableEq, Repr

namespace Invocation

/-- The options and arguments of a command with flags of its own. -/
def withFlags (own : List (Flag Options)) (args : List Text)
    (use : Options → List Text → Invocation) : Invocation :=
  match Flag.parse (Options.globalFlags ++ own ++ [Options.helpFlag]) args .standard with
  | none => .invalid
  | some (options, words) => if options.help then .help else use options words

/-- The shells that scripts for completing arguments can be written for. -/
def shells : List Text := ["bash", "fish", "powershell", "zsh"].map Text.ofString

/-- What is asked for with a script for a shell, or without one for help. The
scripts are left out. -/
def completion (args : List Text) : Invocation :=
  match Flag.firstWord Options.globalFlags args with
  | none => withFlags [] args fun _ _ => .help
  | some (shell, others) =>
    if shells.contains shell then
      withFlags [Options.switch "no-descriptions" none fun options _ => options] others fun _ words =>
        if words.isEmpty then .help else .invalid
    else withFlags [] args fun _ _ => .help

/-- What the arguments ask for. -/
def ofArguments (args : List Text) : Invocation :=
  match Flag.firstWord Options.globalFlags args with
  | none => withFlags [] args fun _ _ => .help
  | some (command, args) =>
    if command == Text.ofString "init" then withFlags [] args fun options _ => .init options
    else if command == Text.ofString "translate" then
      withFlags Options.printFlags args fun
        | options, [program] => .print options program
        | _, _ => .invalid
    else if command == Text.ofString "verify" then
      withFlags Options.verifyFlags args fun
        | options, [program, specification] => .verify options program specification
        | _, _ => .invalid
    else if command == Text.ofString "help" then withFlags [] args fun _ _ => .help
    else if command == Text.ofString "completion" then completion args
    else .invalid

end Invocation

end LogicProgram.CommandLine
