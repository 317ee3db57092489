import MonadicIR.Program

namespace MonadicIR

def Ctor.check (c : Ctor) : Except Fault Unit :=
  if c.inRange then .ok () else .error (.ctorOutOfRange c.name c.tag c.family)

namespace Program

/-- The variables bound so far, with `vars` added to them. -/
def bindAll (d : DefnId) (bound : List Temp) : List Temp → Except Fault (List Temp)
  | [] => .ok bound
  | v :: vs =>
    if v.isWildcard then bindAll d bound vs
    else if bound.contains v then .error (.repeatedBinding v d)
    else bindAll d (v :: bound) vs

def checkAtom (p : Program) (d : DefnId) : Atom → Except Fault Unit
  | .temp t => if t.isWildcard then .error (.wildcardRead d) else .ok ()
  | .top r => do
    let top ← p.top r.top
    if r.index < top.lhs.length then .ok () else .error (.undefinedTop r.top r.index)
  | _ => .ok ()

def checkAtoms (p : Program) (d : DefnId) : List Atom → Except Fault Unit
  | [] => .ok ()
  | a :: as => do
    p.checkAtom d a
    p.checkAtoms d as

def checkCount (site : Site) (expected : Nat) (args : List Atom) : Except Fault Unit :=
  if expected = args.length then .ok () else .error (.arityMismatch site expected args.length)

/-- The rule of the tail itself, once its operands are known to be good. -/
def checkShape (p : Program) : Tail → Except Fault Unit
  | .call c => do checkCount (.call c.target) (← p.block c.target).params.length c.args
  | .closure k args => do checkCount (.closure k) (← p.closure k).stored.length args
  | .data ctor args => do
    ctor.check
    checkCount (.data ctor.name) ctor.arity args
  | .sel ctor field _ => do
    ctor.check
    if field < ctor.arity then .ok () else .error (.fieldOutOfRange ctor.name field ctor.arity)
  | .prim q args => checkCount (.primitive q) q.arity args
  | .ret _ | .enter .. => .ok ()

def checkTail (p : Program) (d : DefnId) (t : Tail) : Except Fault Unit := do
  p.checkAtoms d t.atoms
  p.checkShape t

def checkCalls (p : Program) (d : DefnId) : List Call → Except Fault Unit
  | [] => .ok ()
  | c :: cs => do
    p.checkTail d (.call c)
    p.checkCalls d cs

/-- The constructors of the arms, if none is out of range and none comes twice. -/
def checkArms (d : DefnId) (seen : List Ctor) : List Arm → Except Fault (List Ctor)
  | [] => .ok seen
  | arm :: arms => do
    arm.ctor.check
    if seen.any (·.same arm.ctor) then .error (.duplicateAlternative arm.ctor.name d)
    else checkArms d (arm.ctor :: seen) arms

/-- Without a default, the arms have to cover every constructor of their type. -/
def checkAlts (p : Program) (d : DefnId) (alts : Alts) : Except Fault Unit := do
  let seen ← checkArms d [] alts.arms
  match alts.default, alts.arms with
  | none, first :: _ =>
    let siblings ← p.siblings first.ctor
    match siblings.find? fun c => !seen.any (·.same c) with
    | some c => .error (.uncovered c.name d)
    | none => .ok ()
  | _, _ => .ok ()

def checkOutputs (site : Site) (expected : Nat) (tail : Tail) : Except Fault Unit :=
  match tail.outputs? with
  | some n => if n = expected then .ok () else .error (.arityMismatch site expected n)
  | none => .ok ()

def checkCode (p : Program) (d : DefnId) : Code → List Temp → Except Fault Unit
  | .done t, _ => p.checkTail d t
  | .bind vars tail rest, bound => do
    p.checkTail d tail
    checkOutputs (.binding tail d) vars.length tail
    p.checkCode d rest (← bindAll d bound vars)
  | .assert a ctor rest, bound => do
    p.checkAtom d a
    ctor.check
    p.checkCode d rest bound
  | .branch test yes no, _ => do
    p.checkAtom d test
    p.checkCalls d [yes, no]
  | .switch a alts, _ => do
    p.checkAtom d a
    p.checkCalls d alts.calls
    p.checkAlts d alts

def checkDefn (p : Program) (d : DefnId) : Except Fault Unit :=
  match d with
  | .block b => do
    let block ← p.block b
    p.checkCode d block.code (← bindAll d [] block.params)
  | .closure k => do
    let closure ← p.closure k
    let _ ← bindAll d (← bindAll d [] closure.stored) closure.params
    p.checkTail d closure.tail
  | .top t => do
    let top ← p.top t
    p.checkTail d top.tail
    checkOutputs (.topLevel t) top.lhs.length top.tail

def checkAll (p : Program) : List DefnId → Except Fault Unit
  | [] => .ok ()
  | d :: ds => do
    p.checkDefn d
    p.checkAll ds

/-- Checks the definitions that are still part of the program. -/
def check (p : Program) : Except Fault Unit := p.checkAll p.defns

end Program

end MonadicIR
