import StateSpace.CommandLine.Options
import StateSpace.Description.Parser
import StateSpace.Record.Reader
import StateSpace.Record.Writer
import StateSpace.Search.BreadthFirst
import StateSpace.Solver.ByDiagram

/-!
# Runs of the command line

A run is described by the actions it takes, one after the other, and by how it ends; carrying the
actions out is left to the outermost layer. An action that cannot be carried out ends the run, and
nothing after it is done.
-/

namespace StateSpace.CommandLine

inductive Action where
  | print (line : String)
  /-- Writes a file into a folder, which is created if it is not there. -/
  | save (folder path content : String)
  deriving DecidableEq, Repr, Inhabited

inductive Exit where
  | success
  /-- The input could not be read or the search failed. -/
  | failure (message : String)
  | usage (message : String)
  /-- The computed tables asked for are too large. -/
  | refused
  deriving DecidableEq, Repr, Inhabited

def Exit.code : Exit → Nat
  | success => 0
  | failure _ => 1
  | usage _ => 2
  | refused => 101

structure Run where
  actions : List Action := []
  exit : Exit := .success
  deriving Inhabited

/-! ## Results as lines -/

def unrollingLines (u : Unrolling) : List String :=
  (List.range (u.currentDepth + 1)).map (fun depth =>
    let layer := u.layer depth
    s!"depth {depth}: {layer.fresh.length} new states, {layer.all.length} states, " ++
      s!"{layer.transitions.length} transitions") ++
  [if u.errorState.incoming.isEmpty then "no error reached"
    else "error reached via: " ++ " -> ".intercalate u.errorState.history]

def imageLines {S : Type} (i : Search.Image S) : List String :=
  [s!"reachable states: {i.reachable.size}"] ++ i.errorLines ++ i.counterexampleLines ++
    (if i.reachedErrors.isEmpty then ["no error reached"] else [])

def modeLine (mode : Mode) (ending : Ending) : String :=
  s!"{mode.name}: depth {ending.text}"

/-! ## Engines -/

/-- What an engine leaves: the lines it prints or its failure, and what it took. -/
structure EngineResult where
  lines : Except Failure (List String)
  tally : Tally
  profile : Profile

/-- The result of exploring some data, with the lines about it; none if that goes on forever. -/
def exploreWith {ω β α : Type} (exploration : Exploration Tally ω β α) (lines : α → ω → List String)
    (work : ω) : Option EngineResult :=
  (exploration.run { memory := {}, work }).map fun
    | .ok a session => ⟨.ok (lines a session.work), session.memory, session.profile⟩
    | .error failure session => ⟨.error failure, session.memory, session.profile⟩

/-- The lines about a search in some mode. -/
def searchLines {S : Type} (mode : Mode) (i : Search.Image S) (_ : Search.Work S) : List String :=
  modeLine mode i.ending :: imageLines i

/-- Runs an engine on a system. Time is told by the nodes that the solver has built. -/
def runEngine (o : Options) (c : Configuration) (system : System) : Mode → Option EngineResult
  | .unroll =>
    exploreWith (Unrolling.unroll env c.maxDepth)
      (fun ending u => modeLine .unroll ending :: unrollingLines u) { system }
  | .symbolic =>
    exploreWith (Search.searchSymbolic env (Search.symbolic env true) c.maxDepth)
      (searchLines .symbolic) { unrolling := { system } }
  | .synchronised =>
    exploreWith (Search.searchSymbolic env (Search.synchronised env .shared) c.maxDepth)
      (searchLines .synchronised) { unrolling := { system } }
  | .enumerative =>
    exploreWith (Search.searchConcrete env (Search.enumerative env) c.maxDepth)
      (searchLines .enumerative) { unrolling := { system } }
where
  env : Surroundings Tally := { solver := .byDiagram o.cacheBits, clock := Tally.totalNodes }

/-! ## Whole runs -/

def configuration (o : Options) : Configuration :=
  let c := { Configuration.forMode o.mode with maxDepth := o.maxDepth, profile := o.profile }
  match o.save with
  | some folder => { c with resultFolder := folder, saveSystem := true }
  | none => c

/-- Reads the input in the format that the options say. -/
def readInput (o : Options) (content : String) : Except Failure System :=
  if o.encoded then Record.readSystem content else Description.parseSystem content

/-- The actions after a run that did not fail. -/
def reportActions (c : Configuration) (system : System) (lines : List String) (profile : Profile)
    (tally : Tally) : List Action :=
  lines.map .print ++
  (if c.profile then profile.reportLines.map .print ++ [.print ""] else []) ++
  (if c.saveSystem then
    [.save c.resultFolder c.systemFile (Record.ofSystem system),
      .print s!"transition system saved to {c.systemFile}"]
    else []) ++
  [.print s!"solver: {tally.text}"]

/-- The run after an engine has left its result. -/
def runAfter (c : Configuration) (system : System) (result : EngineResult) : Run :=
  if result.tally.refused then { exit := .refused }
  else
    match result.lines with
    | .error failure => { exit := .failure failure.message }
    | .ok lines => { actions := reportActions c system lines result.profile result.tally }

/-- The run that the options ask for, on the content of the input file, which is missing if the file
cannot be read. There is no run if its engine goes on forever. -/
def runOptions (o : Options) (content : Option String) : Option Run :=
  match content with
  | none => some { exit := .failure s!"cannot read {o.input}" }
  | some content =>
    match readInput o content with
    | .error failure => some { exit := .failure failure.message }
    | .ok system =>
      let c := configuration o
      (runEngine o c system o.mode).map (runAfter c system)

def helpLines : List String :=
  ["Breadth-first reachability for labeled transition systems",
    "",
    "Usage: statespace [OPTIONS] <FILE>",
    "",
    "Options:",
    "      --mode <MODE>        unroll, symbolic, enumerative or synchronised [default: unroll]",
    "      --max-depth <INT>    Depth bound (unbounded by default)",
    "      --profile            Print what each phase took",
    "      --save <DIR>         Write the persisted transition system into this folder",
    "      --encoded            Read FILE in the persisted format",
    "      --log-level <LEVEL>  Log level [default: info]",
    "      --cache-bits <INT>   Size of the computed tables in bits [default: 16]",
    "  -h, --help               Print help",
    "  -V, --version            Print version"]

/-- The run that the arguments ask for, given how files are read. -/
def run (args : List String) (read : String → Option String) : Option Run :=
  match parse args with
  | .error e => some { exit := .usage e.message }
  | .ok .help => some { actions := helpLines.map .print }
  | .ok .version => some { actions := [.print "statespace 0.1.0"] }
  | .ok (.run o) => runOptions o (read o.input)

end StateSpace.CommandLine
