import MonadicIR.Program
import MonadicIR.Machine.Value
import Std.Data.TreeMap

namespace MonadicIR

/-- Where a number of values does not fit. -/
inductive Place where
  | entry (b : BlockId)
  | call (b : BlockId)
  | closure (k : ClosureId)
  | binding (tail : Tail)
  | top (t : TopId)
deriving DecidableEq, Repr

def Place.text : Place → String
  | entry b => "entry " ++ b.text
  | call b => "call to " ++ b.text
  | closure k => "entry to " ++ k.text
  | binding tail => tail.text
  | top t => "values of " ++ t.text

inductive RunError where
  | fault (f : Fault)
  | noEntrypoint
  | unsupportedEntrypoint (d : DefnId)
  | unbound (t : Temp)
  | arity (place : Place) (expected found : Nat)
  | notClosure (tail : Tail) (found : String)
  | notBuiltWith (tail : Tail) (ctor found : String)
  | notFlag (found : String)
  | notData (found : String)
  | noMatch (ctor : String)
  | assertFailed (ctor : String)
  | badPrim (p : Prim) (args : List Observed)
  | tooDeep (limit : Nat)
  | cyclicTop (t : TopId)
deriving DecidableEq, Repr

def RunError.message : RunError → String
  | fault f => f.message
  | noEntrypoint => "the program has no entrypoint"
  | unsupportedEntrypoint d => s!"cannot run {d.text} as an entrypoint"
  | unbound t => t.text ++ " is read before it is bound"
  | arity place expected found => s!"{place.text}: expected {expected}, found {found}"
  | notClosure tail found => s!"{tail.text}: expected a closure, found {found}"
  | notBuiltWith tail ctor found => s!"{tail.text}: expected {ctor}, found {found}"
  | notFlag found => "if: expected a flag, found " ++ found
  | notData found => "case: expected data, found " ++ found
  | noMatch ctor => "no alternative matches constructor " ++ ctor
  | assertFailed ctor => s!"assertion that a value was built with {ctor} failed"
  | badPrim p args => s!"primitive {p.name} cannot be applied to [{Observed.listText args}]"
  | tooDeep limit => s!"calls nested more than {limit} deep"
  | cyclicTop t => t.text ++ " depends on its own value"

/-- Why a run stops before it returns. -/
inductive Stop where
  | halted
  | diverged
  | failed (e : RunError)
deriving DecidableEq, Repr

/-- Variables and their values, the newest first. -/
abbrev Env := List (Temp × Value)

namespace Env

def lookup (env : Env) (t : Temp) : Option Value := (env.find? fun e => e.1 == t).map (·.2)

/-- The wildcard keeps nothing. -/
def bind (env : Env) : List Temp → List Value → Env
  | t :: ts, v :: vs => bind (if t.isWildcard then env else (t, v) :: env) ts vs
  | _, _ => env

end Env

structure Machine where
  steps : Nat := 0
  memory : Std.TreeMap Word Word := ∅
  clock : Word := 0
  output : Array Observed := #[]
  /-- The values of top-levels that are known. -/
  tops : List (TopId × List Value) := []
  /-- The top-levels that are being computed. -/
  pending : List TopId := []

abbrev Run := EStateM Stop Machine

namespace Run

def fail {α : Type} (e : RunError) : Run α := throw (.failed e)

def ofFault {α : Type} : Except Fault α → Run α
  | .ok a => return a
  | .error f => fail (.fault f)

def tick (limit : Nat) : Run Unit := do
  modify fun s => { s with steps := s.steps + 1 }
  if limit < (← get).steps then throw .diverged

/-- The environment at the start of a body. -/
def enter (place : Place) (params : List Temp) (args : List Value) : Run Env :=
  if params.length = args.length then return Env.bind [] params args
  else fail (.arity place params.length args.length)

/-- The values of an atom, given how to compute those of a top-level. -/
def atom (tops : TopId → Run (List Value)) (env : Env) : Atom → Run Value
  | .temp t =>
    match env.lookup t with
    | some v => return v
    | none => fail (.unbound t)
  | .word w => return .word w
  | .flag b => return .flag b
  | .top r => do
    match (← tops r.top)[r.index]? with
    | some v => return v
    | none => fail (.fault (.undefinedTop r.top r.index))
  | .external name => return .external name

def atoms (tops : TopId → Run (List Value)) (env : Env) : List Atom → Run (List Value)
  | [] => return []
  | a :: as => do
    let v ← atom tops env a
    return v :: (← atoms tops env as)

def load (address : Word) : Run Word := do
  return (← get).memory.getD address 0

def store (address word : Word) : Run Unit := modify fun s =>
  { s with memory := s.memory.insert address word, clock := s.clock + 1 }

def print (value : Value) : Run Unit := modify fun s =>
  { s with output := s.output.push value.observe, clock := s.clock + 1 }

def prim (p : Prim) (args : List Value) : Run (List Value) := do
  match p, args with
  | .load, [.word address] => return [.word (← load address)]
  | .store, [.word address, .word word] =>
    store address word
    return []
  | .print, [value] =>
    print value
    return []
  | .ticks, [] => return [.word (← get).clock]
  | .halt, [] => throw .halted
  | .loop, [] => throw .diverged
  | p, args =>
    match (args.mapM Value.scalar?).bind p.compute? with
    | some value => return [.ofScalar value]
    | none => fail (.badPrim p (Value.observeAll args))

/-- Where a tail leaves control. -/
inductive Step where
  | values (vs : List Value)
  | jump (env : Env) (code : Code)

variable (p : Program) (limit : Nat)

def jump (tops : TopId → Run (List Value)) (env : Env) (c : Call) : Run (Env × Code) := do
  let block ← ofFault (p.block c.target)
  let args ← atoms tops env c.args
  return (← enter (.call c.target) block.params args, block.code)

def select (tail : Tail) (ctor : Ctor) (field : Nat) : Value → Run Value
  | .data c fields =>
    if c.same ctor then
      match fields[field]? with
      | some v => return v
      | none => fail (.fault (.fieldOutOfRange ctor.name field fields.length))
    else fail (.notBuiltWith tail ctor.name c.name)
  | other => fail (.notBuiltWith tail ctor.name other.kind)

/-- Evaluates a tail up to a jump. Entering a closure takes a step, so the fuel need not be more
than the steps that are left. -/
def tailStep (tops : TopId → Run (List Value)) : Nat → Env → Tail → Run Step
  | 0, _, _ => throw .diverged
  | fuel + 1, env, tail => do
    match tail with
    | .ret args => return .values (← atoms tops env args)
    | .call c =>
      let (env, code) ← jump p tops env c
      return .jump env code
    | .enter f args =>
      match ← atom tops env f with
      | .closure k stored =>
        let closure ← ofFault (p.closure k)
        let args ← atoms tops env args
        let env ← enter (.closure k) (closure.stored ++ closure.params) (stored ++ args)
        tick limit
        tailStep tops fuel env closure.tail
      | other => fail (.notClosure tail other.kind)
    | .data ctor args => return .values [.data ctor (← atoms tops env args)]
    | .closure k args => return .values [.closure k (← atoms tops env args)]
    | .sel ctor field a => return .values [← select tail ctor field (← atom tops env a)]
    | .prim q args => return .values (← prim q (← atoms tops env args))

/-- The branch that a conditional or a case takes. -/
def choose (test : Value) (yes no : Call) : Run Call :=
  match test with
  | .flag b => return if b then yes else no
  | other => fail (.notFlag other.kind)

def chooseArm (alts : Alts) : Value → Run Call
  | .data ctor _ =>
    match alts.select ctor with
    | some c => return c
    | none => fail (.noMatch ctor.name)
  | other => fail (.notData other.kind)

def assertCtor (ctor : Ctor) : Value → Run Unit
  | .data c _ => if c.same ctor then return () else fail (.assertFailed ctor.name)
  | _ => fail (.assertFailed ctor.name)

/-- Runs code, given how to evaluate a tail whose results are waited for. Every statement takes a
step, so the fuel need not be more than the steps that are left. -/
def runCode (evalTail : Env → Tail → Run (List Value)) (tops : TopId → Run (List Value)) :
    Nat → Env → Code → Run (List Value)
  | 0, _, _ => throw .diverged
  | fuel + 1, env, code => do
    tick limit
    match code with
    | .bind vars tail rest =>
      let values ← evalTail env tail
      if values.length ≠ vars.length then fail (.arity (.binding tail) vars.length values.length)
      runCode evalTail tops fuel (env.bind vars values) rest
    | .assert a ctor rest =>
      assertCtor ctor (← atom tops env a)
      runCode evalTail tops fuel env rest
    | .done tail =>
      match ← tailStep p limit tops (limit + 1) env tail with
      | .values vs => return vs
      | .jump env code => runCode evalTail tops fuel env code
    | .branch test yes no =>
      let c ← choose (← atom tops env test) yes no
      let (env, code) ← jump p tops env c
      runCode evalTail tops fuel env code
    | .switch a alts =>
      let c ← chooseArm alts (← atom tops env a)
      let (env, code) ← jump p tops env c
      runCode evalTail tops fuel env code

/-- The values of a top-level, computed by `evalTail` when they are first needed. -/
def topValues (evalTail : Env → Tail → Run (List Value)) (t : TopId) : Run (List Value) := do
  let s ← get
  match s.tops.find? fun e => e.1 == t with
  | some (_, values) => return values
  | none =>
    if s.pending.contains t then fail (.cyclicTop t)
    let top ← ofFault (p.top t)
    modify fun s => { s with pending := t :: s.pending }
    let values ← evalTail [] top.tail
    modify fun s => { s with pending := s.pending.tail }
    if values.length ≠ top.lhs.length then fail (.arity (.top t) top.lhs.length values.length)
    modify fun s => { s with tops := (t, values) :: s.tops }
    return values

/-- Evaluates tails at one depth of calls. `below` runs code one call deeper. The number counts the
top-levels that are not being computed, and one. -/
def tailLevel (below : Nat → Env → Code → Run (List Value)) :
    Nat → Env → Tail → Run (List Value)
  | 0, _, _ => throw .diverged
  | idle + 1, env, tail => do
    match ← tailStep p limit (topValues p (tailLevel below idle)) (limit + 1) env tail with
    | .values vs => return vs
    | .jump env code => below (idle + 1) env code

/-- The depth to which calls may nest. -/
def depthLimit : Nat := 1000

/-- Evaluates a tail whose results are waited for, with so many calls that may still nest. -/
def evalTail : Nat → Nat → Env → Tail → Run (List Value)
  | 0 => tailLevel p limit fun _ _ _ => fail (.tooDeep depthLimit)
  | depth + 1 => tailLevel p limit fun idle env code =>
    runCode p limit (evalTail depth idle) (topValues p (evalTail depth (idle - 1))) (limit + 1) env
      code

/-- Runs code where so many calls may still nest. -/
def evalCode (depth idle : Nat) (env : Env) (code : Code) : Run (List Value) :=
  runCode p limit (evalTail p limit depth idle) (topValues p (evalTail p limit depth (idle - 1)))
    (limit + 1) env code

/-- No top-level is being computed at the start. -/
def idleAtStart : Nat := p.tops.size + 1

/-- Runs a block with values for its parameters, where so many calls may still nest and so many
top-levels are not being computed. -/
def runBlock (depth idle : Nat) (b : BlockId) (args : List Value) : Run (List Value) := do
  let block ← ofFault (p.block b)
  let env ← enter (.entry b) block.params args
  evalCode p limit depth idle env block.code

def evalEntry (entry : DefnId) (args : List Word) : Run (List Value) := do
  match entry, args with
  | .block b, args => runBlock p limit depthLimit (idleAtStart p) b (args.map .word)
  | .top t, [] => topValues p (evalTail p limit depthLimit (p.tops.size)) t
  | d, _ => fail (.unsupportedEntrypoint d)

end Run

namespace Program

def stepLimit : Nat := 1000000

/-- Runs a definition with words for its parameters. -/
def run (p : Program) (entry : DefnId) (args : List Word) (limit : Nat := stepLimit) :
    Except RunError Outcome :=
  match Run.evalEntry p limit entry args {} with
  | .ok values s => .ok ⟨s.output.toList, .returned (Value.observeAll values)⟩
  | .error .halted s => .ok ⟨s.output.toList, .halted⟩
  | .error .diverged s => .ok ⟨s.output.toList, .diverged⟩
  | .error (.failed e) _ => .error e

/-- Runs the first entrypoint. -/
def runMain (p : Program) (args : List Word) : Except RunError Outcome :=
  match p.entrypoints with
  | entry :: _ => p.run entry args
  | [] => .error .noEntrypoint

end Program

end MonadicIR
