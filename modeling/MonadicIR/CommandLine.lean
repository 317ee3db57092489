import MonadicIR.FlowGraph.Build
import MonadicIR.FlowGraph.Dot
import MonadicIR.Machine.Run
import MonadicIR.Optimiser.Pipeline
import MonadicIR.Sample

namespace MonadicIR

namespace CommandLine

/-- How graphs are shown. -/
inductive GraphView where
  | summary
  | details
  | dot
deriving DecidableEq, Repr

inductive Command where
  | list
  | show (sample : String)
  | optimise (sample : String) (log : Bool) (o : Options)
  | graphs (sample : String) (view : GraphView) (optimised : Bool) (o : Options)
  | run (sample : String) (words : List Word) (o : Options)
deriving DecidableEq, Repr

/-- What a command answers. -/
structure Answer where
  exit : Nat := 0
  output : List String := []
  errors : List String := []
deriving DecidableEq, Repr

/-- The value of a run of decimal digits. -/
def digits? (cs : List Char) : Option Nat :=
  if cs.isEmpty then none
  else cs.foldlM (fun n c => if c.isDigit then some (10 * n + (c.toNat - '0'.toNat)) else none) 0

/-- A count may have a plus sign, and has to fit 64 bits. -/
def count? (s : String) : Option Nat :=
  let n? :=
    match s.toList with
    | '+' :: cs => digits? cs
    | cs => digits? cs
  n?.filter (· < UInt64.size)

def word? (s : String) : Option Word :=
  let n? : Option Int :=
    match s.toList with
    | '-' :: cs => (digits? cs).map fun n => -(n : Int)
    | '+' :: cs => (digits? cs).map Int.ofNat
    | cs => (digits? cs).map Int.ofNat
  (n?.filter fun n => Int64.minValue.toInt ≤ n ∧ n ≤ Int64.maxValue.toInt).map Int64.ofInt

/-- The options that a command knows. -/
structure Grammar where
  /-- Long switches, which may be given once. -/
  switches : List String
  /-- Letters that stand for long switches. -/
  letters : List (Char × String) := []
  /-- Switches that may be repeated. -/
  repeatable : List String := []
  passes : Bool := true
  /-- Words may follow the first plain argument, and may be negative. -/
  words : Bool := false

/-- What has been read of the arguments of a command. -/
structure Reading where
  switches : List String := []
  maxPasses : Option Nat := none
  plain : List String := []

namespace Reading

def addSwitch (g : Grammar) (r : Reading) (name : String) : Option Reading :=
  if g.repeatable.contains name then some r
  else if g.switches.contains name && !r.switches.contains name then
    some { r with switches := name :: r.switches }
  else none

def addLetter (g : Grammar) (r : Reading) (c : Char) : Option Reading := do
  r.addSwitch g (← g.letters.lookup c)

def setPasses (r : Reading) (value : String) : Option Reading :=
  match r.maxPasses, count? value with
  | none, some n => some { r with maxPasses := n }
  | _, _ => none

def addPlain (r : Reading) (args : List String) : Reading := { r with plain := r.plain ++ args }

end Reading

/-- An argument is a long option, perhaps with a value of its own, a group of letters, or plain. -/
inductive Arg where
  | long (name : String) (value : Option String)
  | letters (cs : List Char)
  | plain (s : String)

def Arg.ofString (s : String) : Arg :=
  match s.toList with
  | '-' :: '-' :: cs =>
    match cs.dropWhile (· ≠ '=') with
    | [] => long (.ofList cs) none
    | _ :: value => long (.ofList (cs.takeWhile (· ≠ '='))) (some (.ofList value))
  | ['-'] => plain s
  | '-' :: cs => letters cs
  | _ => plain s

/-- After two dashes all arguments are plain. -/
def readAll (g : Grammar) : List String → Reading → Option Reading
  | [], r => some r
  | "--" :: args, r => some (r.addPlain args)
  | arg :: args, r =>
    match Arg.ofString arg with
    | .plain s => readAll g args (r.addPlain [s])
    | .letters cs =>
      if g.words && !r.plain.isEmpty && (word? arg).isSome then readAll g args (r.addPlain [arg])
      else (cs.foldlM (Reading.addLetter g) r).bind (readAll g args)
    | .long "max-passes" value =>
      if g.passes then
        match value, args with
        | some value, args => (r.setPasses value).bind (readAll g args)
        | none, value :: args => (r.setPasses value).bind (readAll g args)
        | none, [] => none
      else none
    | .long name none => (r.addSwitch g name).bind (readAll g args)
    | .long _ (some _) => none

/-- Options for all commands stand in front of the command. -/
def readGlobal (g : Grammar) : List String → Reading → Option (List String)
  | [], _ => none
  | arg :: args, r =>
    match Arg.ofString arg with
    | .plain _ => some (arg :: args)
    | .letters cs => (cs.foldlM (Reading.addLetter g) r).bind (readGlobal g args)
    | .long name none => (r.addSwitch g name).bind (readGlobal g args)
    | .long _ (some _) => none

def globalGrammar : Grammar where
  switches := ["quiet"]
  letters := [('q', "quiet"), ('v', "verbose")]
  repeatable := ["verbose"]
  passes := false

def optimiserSwitches : List String := ["no-inline", "no-flow", "no-dedup"]

def Reading.has (r : Reading) (name : String) : Bool := r.switches.contains name

def Reading.options (r : Reading) : Options :=
  let o : Options :=
    { inlining := !r.has "no-inline", flow := !r.has "no-flow", merging := !r.has "no-dedup" }
  match r.maxPasses with
  | some n => { o with maxPasses := n }
  | none => o

def Reading.sample? (r : Reading) : Option String :=
  match r.plain with
  | [sample] => some sample
  | _ => none

def parseList (args : List String) : Option Command := do
  let r ← readAll { switches := [], passes := false } args {}
  if r.plain.isEmpty then some .list else none

def parseShow (args : List String) : Option Command := do
  let r ← readAll { switches := [], passes := false } args {}
  return .show (← r.sample?)

def parseOptimise (args : List String) : Option Command := do
  let r ← readAll { switches := "rewrites" :: optimiserSwitches } args {}
  return .optimise (← r.sample?) (r.has "rewrites") r.options

def parseGraphs (args : List String) : Option Command := do
  let g : Grammar :=
    { switches := ["dot", "details", "no-optimise"] ++ optimiserSwitches
      letters := [('n', "no-optimise")] }
  let r ← readAll g args {}
  let view : GraphView :=
    if r.has "dot" then .dot else if r.has "details" then .details else .summary
  return .graphs (← r.sample?) view (!r.has "no-optimise") r.options

def parseRun (args : List String) : Option Command := do
  let r ← readAll { switches := optimiserSwitches, words := true } args {}
  match r.plain with
  | [] => none
  | sample :: words => return .run sample (← words.mapM word?) r.options

/-- The command that the arguments spell, if they spell one. -/
def parse (args : List String) : Option Command := do
  match ← readGlobal globalGrammar args {} with
  | "list" :: args => parseList args
  | "show" :: args => parseShow args
  | "optimise" :: args => parseOptimise args
  | "cfg" :: args => parseGraphs args
  | "run" :: args => parseRun args
  | _ => none

/-- A text that ends in a newline, line by line. A carriage return before a newline belongs to it. -/
def textLines (s : String) : List String :=
  ((s.replace "\r\n" "\n").splitOn "\n").dropLast

def Answer.failed (message : String) (output : List String := []) : Answer :=
  { exit := 1, output, errors := textLines ("Error: " ++ message ++ "\n") }

def sampleLine (s : Sample) : String :=
  s.name.pushn ' ' (12 - s.name.length) ++ " " ++ s.description

/-- Goes on with a sample program. -/
def withSample (name : String) (next : Program → Answer) : Answer :=
  match Sample.find? name with
  | none => .failed s!"unknown sample '{name}'"
  | some s =>
    match s.build with
    | .ok p => next p
    | .error f => .failed f.message

def optimiseAnswer (p : Program) (log : Bool) (o : Options) : Answer :=
  let logLines (w : Workbench) := if log then w.log.toList.map Change.text else []
  match p.optimise o with
  | .ok _ w =>
    { output := logLines w ++ (if log then [""] else []) ++ textLines w.program.text }
  | .error f w => .failed f.message (logLines w)

def viewLines (view : GraphView) (gs : List FlowGraph) : List String :=
  match view with
  | .dot => FlowGraph.dot gs
  | .details => gs.flatMap FlowGraph.details
  | .summary => gs.map FlowGraph.summary

def graphsAnswer (p : Program) (view : GraphView) (optimised : Bool) (o : Options) : Answer :=
  let prepared : EStateM.Result Failure Workbench Unit :=
    if optimised then
      match p.optimise o with
      | .ok _ w => .ok () w
      | .error f w => .error f w
    else p.shake
  match prepared with
  | .error f _ => .failed f.message
  | .ok _ w =>
    match Edit.flowGraphs o.smallBlock w.program with
    | .ok gs _ => { output := viewLines view gs }
    | .error f _ => .failed f.message

def outcomeText (o : Outcome) : String :=
  s!"[{Observed.listText o.output}], {o.termination.text}"

/-- Runs a program before and after optimisation, which should make no difference. -/
def runAnswer (p : Program) (words : List Word) (o : Options) : Answer :=
  match p.runMain words with
  | .error e => .failed e.message
  | .ok before =>
    match p.optimise o with
    | .error f _ => .failed f.message
    | .ok _ w =>
      match w.program.runMain words with
      | .error e => .failed e.message
      | .ok after =>
        let output := after.output.map Observed.text ++ [after.termination.text]
        if before = after then { output }
        else
          .failed (s!"optimised program behaves differently: before, {outcomeText before}" ++
            s!"; after, {outcomeText after}") output

def Command.answer : Command → Answer
  | .list => { output := Sample.all.map sampleLine }
  | .show sample => withSample sample fun p => { output := textLines p.text }
  | .optimise sample log o => withSample sample fun p => optimiseAnswer p log o
  | .graphs sample view optimised o =>
    withSample sample fun p => graphsAnswer p view optimised o
  | .run sample words o => withSample sample fun p => runAnswer p words o

def usage : Answer where
  exit := 2
  errors := ["usage: list | show SAMPLE | optimise SAMPLE | cfg SAMPLE | run SAMPLE [WORD...]"]

/-- Arguments that spell no command are answered with the usage. -/
def answer (args : List String) : Answer := (parse args).elim usage Command.answer

end CommandLine

end MonadicIR
