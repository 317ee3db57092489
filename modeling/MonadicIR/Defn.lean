import MonadicIR.Code

namespace MonadicIR

/-- What the analyses noted about a definition. Nothing here belongs to its meaning. -/
structure Notes where
  /-- References, one more for an entrypoint. -/
  occurs : Nat := 0
  /-- Calls that wait for a result. -/
  calls : Nat := 0
  neverReturns : Bool := false
  /-- The component that the definition belongs to. -/
  component : Option Nat := none
  entrypoint : Bool := false
deriving DecidableEq, Repr

/-- What is known of an argument when a definition is specialised for it. -/
inductive ArgShape where
  | unknown
  /-- Built here with `ctor`: its fields are passed in its place. -/
  | data (ctor : Ctor)
  /-- Allocated here: its stored fields are passed in its place. -/
  | closure (k : ClosureId)
  /-- Built with `ctor`, but its fields are not known. -/
  | tag (ctor : Ctor)
  /-- A constant, which need not be passed. -/
  | value (a : Atom)
deriving DecidableEq, Repr

namespace ArgShape

def same : ArgShape → ArgShape → Bool
  | unknown, unknown => true
  | data c, data d => c.same d
  | closure k, closure l => k == l
  | tag c, tag d => c.same d
  | value a, value b => a == b
  | _, _ => false

def sameAll : List ArgShape → List ArgShape → Bool
  | [], [] => true
  | p :: ps, q :: qs => p.same q && sameAll ps qs
  | _, _ => false

def text : ArgShape → String
  | unknown => "_"
  | data ctor => ctor.name ++ "(..)"
  | closure k => k.text ++ "\x7b..\x7d"
  | tag ctor => ctor.name ++ "?"
  | value a => a.text

end ArgShape

/-- How a definition came to exist. The depth counts the derivations since the source program. -/
inductive Origin where
  | source
  | known (shapes : List ArgShape) (depth : Nat)
  /-- Takes each variable of a call once; a repeated argument names the earlier position. -/
  | shared (repeats : List (Option Nat)) (depth : Nat)
  /-- Enters its last parameter with what the source would have returned. -/
  | continuation (depth : Nat)
  /-- Enters what the source would have returned with its last parameters. -/
  | entering (arity depth : Nat)
deriving DecidableEq, Repr

namespace Origin

def depth : Origin → Nat
  | source => 0
  | known _ d | shared _ d | continuation d | entering _ d => d

def shapes? : Origin → Option (List ArgShape)
  | known shapes _ => some shapes
  | _ => none

/-- Was the definition made for arguments of these shapes? -/
def isFor (o : Origin) (shapes : List ArgShape) : Bool :=
  match o with
  | known own _ => ArgShape.sameAll own shapes
  | _ => false

def sharesLike (o : Origin) (repeats : List (Option Nat)) : Bool :=
  match o with
  | shared own _ => own == repeats
  | _ => false

end Origin

structure Block where
  params : List Temp
  code : Code
  notes : Notes := {}
  origin : Origin := .source
  /-- The blocks that were specialised from this one. -/
  derived : List BlockId := []
  /-- An equivalent block to use instead. -/
  replacement : Option BlockId := none
deriving DecidableEq, Repr

namespace Block

/-- Does the block only pass control on? -/
def isGoto (b : Block) : Bool :=
  match b.code with
  | .done (.call c) => !b.params.isEmpty || c.args.isEmpty
  | _ => false

/-- Stands for a block whose body is not known yet. -/
def placeholder : Block where
  params := []
  code := .done (.ret [])

end Block

structure Closure where
  stored : List Temp
  params : List Temp
  tail : Tail
  notes : Notes := {}
  origin : Origin := .source
  derived : List ClosureId := []
  replacement : Option ClosureId := none
deriving DecidableEq, Repr

def Closure.placeholder : Closure where
  stored := []
  params := []
  tail := .ret []

structure TopName where
  name : String
  ty : Option Ty := none
deriving DecidableEq, Repr

structure TopLevel where
  lhs : List TopName
  tail : Tail
  notes : Notes := {}
deriving DecidableEq, Repr

def TopLevel.names (t : TopLevel) : List String := t.lhs.map TopName.name

end MonadicIR
