import MonadicIR.Check

namespace MonadicIR

/-- Where the references of a copy point to. -/
structure Redirection where
  block : BlockId → BlockId := id
  closure : ClosureId → ClosureId := id
  top : TopRef → TopRef := id
  ty : Ty → Ty := id

namespace Redirection

def atom (r : Redirection) (s : Subst) (a : Atom) : Atom :=
  match s.apply a with
  | .top t => .top (r.top t)
  | a => a

def tail (r : Redirection) (s : Subst) (t : Tail) : Tail :=
  match t.mapAtoms (r.atom s) with
  | .call c => .call ⟨r.block c.target, c.args⟩
  | .closure k args => .closure (r.closure k) args
  | t => t

/-- The operands of a branch are renamed, but keep the top-levels they name. -/
def branch (r : Redirection) (s : Subst) (c : Call) : Call := ⟨r.block c.target, s.applyAll c.args⟩

/-- Fresh variables of the mapped types. The wildcard stands for itself. -/
def freshTemps (r : Redirection) : List Temp → Edit (List Temp)
  | [] => return []
  | t :: ts => do
    let u ← if t.isWildcard then pure t
      else do Edit.freshTyped (((← get).temps.ty t).map r.ty)
    return u :: (← r.freshTemps ts)

def code (r : Redirection) : Code → Subst → Edit Code
  | .done t, s => return .done (r.tail s t)
  | .bind vars tail rest, s => do
    let fresh ← r.freshTemps vars
    return .bind fresh (r.tail s tail) (← r.code rest (s.renameAll vars fresh))
  | .assert a ctor rest, s => return .assert (r.atom s a) ctor (← r.code rest s)
  | .branch test yes no, s => return .branch (r.atom s test) (r.branch s yes) (r.branch s no)
  | .switch a alts, s => return .switch (r.atom s a) (alts.mapCalls (r.branch s))

end Redirection

namespace Edit

/-- Adds a copy of a definition with fresh variables, and gives its name. -/
def specialise (r : Redirection) : DefnId → Edit DefnId
  | .block b => do
    let block ← read (·.block b)
    let params ← r.freshTemps block.params
    let code ← r.code block.code (({} : Subst).renameAll block.params params)
    return .block (← addBlock { params, code })
  | .closure k => do
    let closure ← read (·.closure k)
    let stored ← r.freshTemps closure.stored
    let params ← r.freshTemps closure.params
    let s := (({} : Subst).renameAll closure.stored stored).renameAll closure.params params
    return .closure (← addClosure { stored, params, tail := r.tail s closure.tail })
  | .top t => do
    let top ← read (·.top t)
    let lhs := top.lhs.map fun n => { n with ty := n.ty.map r.ty }
    return .top (← addTop { lhs, tail := r.tail {} top.tail })

end Edit

/-- A change of representation: what to put in the place of a tail, if anything. It has a state of
its own and may add definitions. -/
abbrev Transform (σ : Type) := Tail → EStateM Fault (σ × Program) (Option Tail)

namespace Transform

variable {σ : Type}

def ofEdit {α : Type} (e : Edit α) : EStateM Fault (σ × Program) α := fun (x, p) =>
  match e p with
  | .ok a p => .ok a (x, p)
  | .error f p => .error f (x, p)

/-- The tail to use, and one if it was replaced. -/
def tail (f : Transform σ) (t : Tail) : EStateM Fault (σ × Program) (Tail × Nat) := do
  match ← f t with
  | some u => return (u, 1)
  | none => return (t, 0)

def code (f : Transform σ) : Code → EStateM Fault (σ × Program) (Code × Nat)
  | .done t => do
    let (t, n) ← f.tail t
    return (.done t, n)
  | .bind vars tail rest => do
    let (tail, n) ← f.tail tail
    let (rest, m) ← f.code rest
    return (.bind vars tail rest, n + m)
  | .assert a ctor rest => do
    let (rest, n) ← f.code rest
    return (.assert a ctor rest, n)
  | .branch test yes no => return (.branch test yes no, 0)
  | .switch a alts => return (.switch a alts, 0)

def defn (f : Transform σ) : DefnId → EStateM Fault (σ × Program) Nat
  | .block b => do
    let (code, n) ← f.code (← ofEdit (Edit.read (·.block b))).code
    ofEdit (Edit.modifyBlock b fun block => { block with code })
    return n
  | .closure k => do
    let (tail, n) ← f.tail (← ofEdit (Edit.read (·.closure k))).tail
    ofEdit (Edit.modifyClosure k fun closure => { closure with tail })
    return n
  | .top t => do
    let (tail, n) ← f.tail (← ofEdit (Edit.read (·.top t))).tail
    ofEdit (Edit.modifyTop t fun top => { top with tail })
    return n

def defns (f : Transform σ) : List DefnId → EStateM Fault (σ × Program) Nat
  | [] => return 0
  | d :: ds => do
    let n ← f.defn d
    return n + (← f.defns ds)

/-- Goes over every tail of the retained definitions, checks the result and counts the tails that
were replaced. -/
def run (f : Transform σ) : EStateM Fault (σ × Program) Nat := do
  let n ← f.defns (← get).2.defns
  ofEdit (Edit.read Program.check)
  return n

end Transform

end MonadicIR
