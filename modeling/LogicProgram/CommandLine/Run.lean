import LogicProgram.CommandLine.Invocation
import LogicProgram.CommandLine.Report
import LogicProgram.Configuration
import LogicProgram.Disk
import LogicProgram.Prover.CacheFile
import LogicProgram.Verification

/-!
# Running a command

A command works on files and asks a prover. What it sees of the world besides
files is a host: which programs can be started and what they answer, a clock,
and whether output goes to a terminal. Watching files ends after the first run,
when time is up.
-/

namespace LogicProgram.CommandLine

/-- What a program that was started left behind. -/
structure ProcessResult where
  /-- The exit code; negative if a signal ended it. -/
  exitCode : Int
  stdout : Text
  stderr : Text
deriving DecidableEq, Repr

/-- The world of a command besides files; `σ` is what it keeps. -/
structure Host (σ : Type) where
  isTerminal : Bool
  /-- Whether a program without a path can be started. -/
  isInstalled : Text → Bool
  /-- Starts a program with arguments and an input. -/
  start : (command : Text) → (arguments : List Text) → (input : Text) → StateM σ ProcessResult
  /-- The time in nanoseconds. -/
  clock : StateM σ Int

/-- What commands change. -/
structure World (σ : Type) where
  disk : Disk
  /-- What was saved in the files of proof caches by their path. -/
  caches : List (Path × List Cache.Entry)
  /-- What the host keeps. -/
  environment : σ

/-- What a command leaves behind. -/
structure Output where
  stdout : Text
  errors : List Text
  /-- Zero if all went well. -/
  exitCode : Nat
deriving DecidableEq, Repr

namespace Output

/-- The output of a command that went well. -/
def ok (stdout : Text) : Output := ⟨stdout, [], 0⟩

/-- The output of a command that failed. -/
def failed (colored : Bool) (e : Error) (stdout : Text) : Output :=
  ⟨stdout, [Report.errorText colored e], 1⟩

end Output

/-- Whether a command is a path, which is not looked up among programs. -/
def isPath (command : Text) : Bool := command.any (Text.isChar '/')

/-- Why no program is found for a command. The first directory of all is a name as
well as a path. -/
def notFound? (isInstalled : Text → Bool) (command : Text) : Option Text :=
  let failure (reason : Text) : Text := "exec: " ++ Text.quote command ++ ": " ++ reason
  if command == Path.rootName then some (failure "is a directory")
  else if isPath command || isInstalled command then none
  else some (failure "executable file not found in $PATH")

/-- Why a file cannot be started. None of the files that commands see can. -/
def notExecutable (d : Disk) (command : Text) : Text :=
  "fork/exec " ++ command ++ ": " ++
    match d.look command with
    | .ok _ => "permission denied"
    | .error f => f.text

/-- A prover that could not be run. -/
def notRun (cause : Text) : Error := .caused .proverNotRun .unknown (.plain cause)

/-- Why a prover is not run when time is up. -/
def timeIsUp : Error := notRun "context deadline exceeded"

/-- Whether the time is up. -/
def isLate (deadline : Option Int) (now : Int) : Bool := deadline.any (· ≤ now)

/-- The prover that a call describes. -/
def prover {σ : Type} (host : Host σ) (d : Disk) (options : ProverOptions) (deadline : Option Int) :
    Prover σ := fun problem => ExceptT.mk fun s =>
  match notFound? host.isInstalled options.command with
  | some reason => (.error (notRun reason), s)
  | none =>
    let (now, s) := host.clock.run s
    if isLate deadline now then (.error timeIsUp, s)
    else if isPath options.command then (.error (notRun (notExecutable d options.command)), s)
    else
      let (r, s) := (host.start options.command options.fullArguments problem).run s
      let (now, s) := host.clock.run s
      if r.exitCode != 0 && isLate deadline now then (.error timeIsUp, s)
      else (Verdict.ofOutput r.exitCode r.stdout r.stderr, s)

/-- The configuration in a file. The standard file may be missing. -/
def loadConfiguration (d : Disk) (path : Text) : Except Error Configuration :=
  let path := if path.isEmpty then Configuration.standardPath else path
  match d.content path with
  | .ok content => Configuration.parse path content
  | .error (f, e) =>
    if f = .missing && path == Configuration.standardPath then .ok .standard
    else if f = .isDirectory then
      .error (Fault.malformedConfiguration path ("yaml: input error: " ++ e.message))
    else .error (.caused (.unreadableFile path) .unknown e)

/-- The configuration with the colour choice of the options. -/
def configured (d : Disk) (o : Options) : Except Error Configuration := do
  let c ← loadConfiguration d o.config
  match o.color with
  | none => return c
  | some name => return { c with color := (← ColorChoice.parse name).text }

def isColored (isTerminal : Bool) (c : Configuration) : Bool :=
  if c.color == ColorChoice.always.text then true
  else if c.color == ColorChoice.never.text then false
  else isTerminal

/-- The configuration with the options for verifying. -/
def overridden (c : Configuration) (o : Options) : Configuration :=
  { c with
    direction := o.direction.getD c.direction
    simplify := c.simplify && !o.noSimplify
    prover := { c.prover with
      command := if o.prover.isEmpty then c.prover.command else o.prover
      timeLimit := o.timeLimit.getD c.prover.timeLimit } }

def cacheFileName : Text := "proof_cache.gob"

def cachePath (directory : Text) : Path := (Path.ofText directory).append cacheFileName

variable {σ : Type}

/-- Steps of a command on the world. What they did before a failure stays. -/
abbrev Changing (σ : Type) := ExceptT Error (StateM (World σ))

/-- Steps on the files of the world. -/
def onDisk {α : Type} (steps : Disk.Changing α) : Changing σ α := ExceptT.mk fun w =>
  let (result, disk) := (steps.run w.disk : Except Error α × Disk)
  (result, { w with disk })

/-- Steps with what was done named in their errors. -/
def doing {α : Type} (activity : Text) (steps : Changing σ α) : Changing σ α :=
  tryCatch steps fun e => throw (.during activity e)

/-- The file of a proof cache. A file that this program did not save, or that was
written over, cannot be read back. -/
def loadCache (w : World σ) (path : Path) : Except Error CacheFile :=
  let undecoded (e : Error) : Error := .during "failed to decode cache file" e
  match w.disk.content path.text with
  | .ok content =>
    match w.caches.find? (·.1 == path) with
    | some (_, entries) =>
      if content == CacheFile.savedStart then .ok (.saved entries)
      else .error (undecoded (.plain (CacheFile.damage content).text))
    | none => .error (undecoded (.plain (CacheFile.damage content).text))
  | .error (.missing, _) => .ok .absent
  | .error (.isDirectory, e) => .error (undecoded e)
  | .error (_, e) => .error (.during "failed to open cache file" e)

/-- The world after the file of a proof cache was saved. -/
def saveCache (w : World σ) (path : Path) : CacheFile → World σ
  | .saved entries =>
    match w.disk.create path.text CacheFile.savedStart with
    | .ok disk => { w with disk, caches := w.caches.filter (·.1 != path) ++ [(path, entries)] }
    | .error _ => w
  | _ => w

/-- The proof cache of a configuration, if it has one, with its file. Its
directory is made if there is none. -/
def openCache (c : Configuration) : Changing σ (Option (Cache × CacheFile)) := do
  if c.cache.directory.isEmpty then return none
  doing "failed to open proof cache" do
    doing "failed to create cache directory" (onDisk (Disk.makeDirectory c.cache.directory))
    let file ← doing "failed to load cache"
      (loadCache (← get) (cachePath c.cache.directory) : Except Error CacheFile)
    return (Cache.open? c.proverOptions.fingerprint c.cache.maxAge file).map (·, file)

/-- Writes the standard configuration. -/
def init (o : Options) (w : World σ) : Output × World σ :=
  let path := if o.config.isEmpty then Configuration.standardPath else o.config
  match w.disk.write path Configuration.standardText with
  | .error e => (.failed false e [], w)
  | .ok disk => (.ok ("Configuration file created/updated: " ++ path ++ "\n"), { w with disk })

def print (host : Host σ) (o : Options) (program : Text) (w : World σ) : Output × World σ :=
  match configured w.disk o with
  | .error e => (.failed false e [], w)
  | .ok c =>
    let colored := isColored host.isTerminal c
    let steps : Changing σ (Format × Text) := do
      let format ← Format.parse o.format
      let text ← w.disk.read program
      let _ ← openCache c
      return (format, text)
    match (steps.run w : Except Error (Format × Text) × World σ) with
    | (.error e, w) => (.failed colored e [], w)
    | (.ok (format, text), w) =>
      match Verification.ofProgram (c.simplify && !o.noSimplify) text with
      | .error e => (.failed colored e [], w)
      | .ok p =>
        let document := p.document format
        match document.failure? with
        | some e => (.failed colored e document.written, w)
        | none => (.ok document.written, w)

/-- Proves the problem of two files with a prover: what is shown, how it ended,
and what the prover keeps. -/
def proveFiles {τ : Type} (d : Disk) (c : Configuration) (r : Report) (p : Prover τ)
    (program specification : Text) (environment : τ) : Text × Except Error ProofStatus × τ :=
  let problem : Except Error Problem := do
    let program ← d.read program
    let specification ← d.read specification
    Verification.ofSpecification c.simplify program specification
  match problem with
  | .error e => ([], .error e, environment)
  | .ok problem =>
    let (status, s) := ((Proving.prove (ProverStep.ofProver p) c.proofDirection).run
      ⟨problem, [], environment⟩ : Except Error ProofStatus × ProofState τ)
    (r.eventsText [] s.events, status, s.environment)

/-- Verifies two files: what is shown and how it ended. -/
def verifyFiles (host : Host σ) (c : Configuration) (cache : Option (Cache × CacheFile))
    (r : Report) (deadline : Option Int) (program specification : Text) (w : World σ) :
    Text × Except Error ProofStatus × World σ :=
  let p := prover host w.disk c.proverOptions deadline
  match cache with
  | none =>
    let (shown, status, environment) := proveFiles w.disk c r p program specification w.environment
    (shown, status, { w with environment })
  | some (cache, file) =>
    let (shown, status, s) := proveFiles w.disk c r (Cache.prove host.clock p) program specification
      ⟨cache, file, w.environment⟩
    (shown, status,
      saveCache { w with environment := s.environment } (cachePath c.cache.directory) s.file)

/-- Why what holds a file cannot be watched. It need not be a directory. -/
def unwatchable? (d : Disk) (path : Text) : Option Error :=
  let watched : Except Disk.Failure Disk.Item :=
    if path.contains 0 then .error .notPath
    else (d.follow [] (Path.ofText path).parent).bind d.item
  match watched with
  | .ok _ => none
  | .error f => some (.during "error adding directory to watcher" (.plain f.text))

/-- Verifies two files, and says so first if they are watched. -/
def verify (host : Host σ) (o : Options) (program specification : Text) (w : World σ) :
    Output × World σ :=
  match configured w.disk o with
  | .error e => (.failed false e [], w)
  | .ok c =>
    let report : Report := ⟨isColored host.isTerminal c, o.progress⟩
    let steps : Changing σ (Configuration × Option (Cache × CacheFile)) := do
      let c ← (overridden c o).validate
      return (c, ← openCache c)
    match (steps.run w : Except Error (Configuration × Option (Cache × CacheFile)) × World σ) with
    | (.error e, w) => (.failed report.colored e [], w)
    | (.ok (c, cache), w) =>
      let (now, environment) := host.clock.run w.environment
      let w := { w with environment }
      let deadline := if 0 < o.timeout then some (now + o.timeout) else none
      let announcement := "watching " ++ program ++ " and " ++ specification ++ "\n"
      match (unwatchable? w.disk program).or (unwatchable? w.disk specification), o.watch with
      | some e, true => (.failed report.colored e announcement, w)
      | _, watch =>
        let (shown, status, w) := verifyFiles host c cache report deadline program specification w
        let shown := if watch then announcement ++ shown else shown
        match status with
        | .error e =>
          let output := Output.failed report.colored e shown
          (if watch then { output with exitCode := 0 } else output, w)
        | .ok status =>
          (⟨shown ++ report.statusText status, [], if watch || status = .proven then 0 else 1⟩, w)

/-- What is printed for help. -/
def helpText : Text :=
  "usage: anthem init\n" ++ "       anthem translate <program>\n"
    ++ "       anthem verify <program> <specification>\n"

def run (host : Host σ) (args : List Text) (w : World σ) : Output × World σ :=
  match Invocation.ofArguments args with
  | .invalid => (⟨[], [], 1⟩, w)
  | .help => (.ok helpText, w)
  | .init o => init o w
  | .print o program => print host o program w
  | .verify o program specification => verify host o program specification w

end LogicProgram.CommandLine
