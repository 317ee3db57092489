import MonadicIR.Optimiser.Pass
import MonadicIR.Facts

namespace MonadicIR

namespace Facts

/-- What is known of an argument, and what to pass in its place. -/
def argShape (fs : Facts) (p : Program) (constants : Bool) (a : Atom) : ArgShape × List Atom :=
  let plain := if constants && a.isConstant then (.value a, []) else (.unknown, [a])
  match fs.about p a with
  | some (.tail (.data c (field :: fields))) => (.data c, field :: fields)
  | some (.tail (.closure k fields)) => (.closure k, fields)
  | some fact =>
    match fact.ctor? with
    | some c => (.tag c, [a])
    | none => plain
  | none => plain

def argShapes (fs : Facts) (p : Program) (constants : Bool) (args : List Atom) :
    List ArgShape × List Atom :=
  let shaped := args.map (fs.argShape p constants)
  (shaped.map (·.1), shaped.flatMap (·.2))

end Facts

namespace ArgShape

/-- A copy pays off if some argument need not be passed as it is. -/
def paysOff : ArgShape → Bool
  | data _ | closure _ | value _ => true
  | unknown | tag _ => false

def listText (shapes : List ArgShape) : String := commas (shapes.map text)

end ArgShape

/-- How a copy receives its arguments: its parameters, what it rebuilds and asserts at its start,
and what stands for the parameters of the source. -/
structure Prologue where
  params : List Temp := []
  inits : List (Temp × Tail) := []
  asserts : List (Temp × Ctor) := []
  values : List Atom := []
deriving DecidableEq, Repr

namespace Prologue

def append (x y : Prologue) : Prologue :=
  ⟨x.params ++ y.params, x.inits ++ y.inits, x.asserts ++ y.asserts, x.values ++ y.values⟩

def wrap (x : Prologue) (code : Code) : Code :=
  x.inits.foldr (fun (v, tail) code => .bind [v] tail code)
    (x.asserts.foldr (fun (v, ctor) code => .assert (.temp v) ctor code) code)

end Prologue

namespace Edit

/-- A parameter of the same type. Even a wildcard gets a name, so that it can be passed on. -/
def freshParam (param : Temp) : Edit Temp := if param.isWildcard then fresh else freshLike param

def freshParams : List Temp → Edit (List Temp)
  | [] => return []
  | t :: ts => do
    let u ← freshParam t
    return u :: (← freshParams ts)

def prologueOf (param : Temp) : ArgShape → Edit Prologue
  | .value a => return { values := [a] }
  | .unknown => do
    let v ← freshParam param
    return { params := [v], values := [.temp v] }
  | .tag ctor => do
    let v ← freshParam param
    return { params := [v], asserts := [(v, ctor)], values := [.temp v] }
  | .data ctor => do
    let fields ← freshN ctor.arity
    let v ← freshParam param
    return { params := fields, inits := [(v, .data ctor (fields.map .temp))], values := [.temp v] }
  | .closure k => do
    let fields ← freshN (← read (·.closure k)).stored.length
    let v ← freshParam param
    return { params := fields, inits := [(v, .closure k (fields.map .temp))], values := [.temp v] }

def prologue : List Temp → List ArgShape → Edit Prologue
  | param :: params, shape :: shapes => do
    let x ← prologueOf param shape
    return x.append (← prologue params shapes)
  | _, _ => return {}

/-- The parameters and body of a copy that takes arguments of the given shapes. -/
def specialiseCode (params : List Temp) (code : Code) (shapes : List ArgShape) :
    Edit (List Temp × Code) := do
  if params.length ≠ shapes.length then
    throw (.arityMismatch .specialisation params.length shapes.length)
  let x ← prologue params shapes
  let (copy, _) ← copyFresh code (({} : Subst).extendAll params x.values)
  return (x.params, x.wrap copy)

def addDerivedBlock (source : BlockId) (block : Block) : Edit BlockId := do
  let b ← addBlock block
  modifyBlock source fun s => { s with derived := s.derived ++ [b] }
  return b

/-- A closure that passes its stored fields and arguments on to a new block with the specialised
body, and that block. -/
def addDerivedClosure (k : ClosureId) (source : Closure) (shapes : List ArgShape) (depth : Nat) :
    Edit (ClosureId × BlockId) := do
  let full := shapes ++ source.params.map fun _ => .unknown
  let (params, code) ← specialiseCode (source.stored ++ source.params) (.done source.tail) full
  let stored ← freshN (params.length - source.params.length)
  let newParams ← freshLikeAll source.params
  let body ← addBlock { params, code, origin := .known full depth }
  let derived ← addClosure {
    stored
    params := newParams
    tail := .call ⟨body, (stored ++ newParams).map .temp⟩
    origin := .known shapes depth }
  modifyClosure k fun s => { s with derived := s.derived ++ [derived] }
  return (derived, body)

/-- The parameters of a copy that takes a repeated argument once, and what stands for those of the
source. `kept` holds the values of the earlier positions. -/
def shareParams (kept : List Temp) : List Temp → List (Option Nat) → Edit (List Temp × List Temp)
  | _ :: params, some j :: repeats => do
    let v := (kept[j]?).getD .wildcard
    let (own, values) ← shareParams (kept ++ [v]) params repeats
    return (own, v :: values)
  | param :: params, none :: repeats => do
    let v ← freshParam param
    let (own, values) ← shareParams (kept ++ [v]) params repeats
    return (v :: own, v :: values)
  | _, _ => return ([], [])

def addSharingBlock (b : BlockId) (source : Block) (repeats : List (Option Nat)) (depth : Nat) :
    Edit BlockId := do
  let (params, values) ← shareParams [] source.params repeats
  let (code, _) ← copyFresh source.code (({} : Subst).renameAll source.params values)
  addDerivedBlock b { params, code, origin := .shared repeats depth }

end Edit

namespace Program

def derivedBlock? (p : Program) (source : Block) (fits : Origin → Bool) : Option BlockId :=
  source.derived.find? fun b => (p.blocks[b.index]?).any fun block => fits block.origin

def derivedClosure? (p : Program) (source : Closure) (fits : Origin → Bool) : Option ClosureId :=
  source.derived.find? fun k => (p.closures[k.index]?).any fun closure => fits closure.origin

end Program

/-- For each argument that repeats an earlier variable, the position of that one. -/
def repeatsOf (args : List Atom) : List (Option Nat) :=
  args.mapIdx fun i a =>
    match a with
    | .temp _ => (args.take i).findIdx? (· == a)
    | _ => none

/-- The items that repeat nothing. -/
def withoutRepeats {α : Type} : List α → List (Option Nat) → List α
  | a :: as, none :: repeats => a :: withoutRepeats as repeats
  | _ :: as, some _ :: repeats => withoutRepeats as repeats
  | _, _ => []

namespace Pass

/-- Calls a copy of the callee that was made for what is known of the arguments. A new copy is
handed to `onCopy` first. -/
def callKnown (o : Options) (onCopy : BlockId → Pass Unit) (fs : Facts) (c : Call) :
    Pass (Option Call) := do
  let recursive ← look (·.isRecursive (.block c.target))
  let p := (← get).program
  let (shapes, args) := fs.argShapes p (!recursive) c.args
  if !shapes.any ArgShape.paysOff then return none
  let block ← look (·.block c.target)
  if block.params.length ≠ c.args.length then
    throw (.fault (.arityMismatch (.call c.target) block.params.length c.args.length))
  let depth := block.origin.depth + 1
  if block.origin.isFor shapes || o.deriveDepth < depth then return none
  let target ← match p.derivedBlock? block (·.isFor shapes) with
    | some b => pure b
    | none => do
      let (params, code) ← edit (Edit.specialiseCode block.params block.code shapes)
      let b ← edit (Edit.addDerivedBlock c.target { params, code, origin := .known shapes depth })
      onCopy b
      pure b
  let derived : Call := ⟨target, args⟩
  report s!"{c.text} calls {derived.text}, specialised for [{ArgShape.listText shapes}]"
  return some derived

/-- Allocates a copy of a closure that was made for what is known of the stored fields. -/
def allocateKnown (o : Options) (onCopy : BlockId → Pass Unit) (fs : Facts) (k : ClosureId)
    (args : List Atom) : Pass (Option Tail) := do
  let recursive ← look (·.isRecursive (.closure k))
  let p := (← get).program
  let (shapes, passed) := fs.argShapes p (!recursive) args
  if !shapes.any ArgShape.paysOff then return none
  let closure ← look (·.closure k)
  if closure.stored.length ≠ args.length then
    throw (.fault (.arityMismatch (.closure k) closure.stored.length args.length))
  let depth := closure.origin.depth + 1
  if closure.origin.isFor shapes || o.deriveDepth < depth then return none
  let derived ← match p.derivedClosure? closure (·.isFor shapes) with
    | some d => pure d
    | none => do
      let (d, body) ← edit (Edit.addDerivedClosure k closure shapes depth)
      onCopy body
      pure d
  report s!"{k.text} allocation specialised as {derived.text}"
  return some (.closure derived passed)

/-- Calls a copy of the callee that takes each variable once. -/
def callSharing (o : Options) (c : Call) : Pass (Option Call) := do
  let repeats := repeatsOf c.args
  if repeats.all Option.isNone then return none
  let block ← look (·.block c.target)
  if block.params.length ≠ c.args.length then
    throw (.fault (.arityMismatch (.call c.target) block.params.length c.args.length))
  let depth := block.origin.depth + 1
  if o.deriveDepth < depth then return none
  let target ← match (← get).program.derivedBlock? block (·.sharesLike repeats) with
    | some b => pure b
    | none => edit (Edit.addSharingBlock c.target block repeats depth)
  let derived : Call := ⟨target, withoutRepeats c.args repeats⟩
  report s!"{c.text} passes each variable once to {derived.text}"
  return some derived

end Pass

end MonadicIR
