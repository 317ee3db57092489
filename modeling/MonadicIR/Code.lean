import MonadicIR.Subst

namespace MonadicIR

structure Arm where
  ctor : Ctor
  call : Call
deriving DecidableEq, Repr

/-- The alternatives of a case. Without a default the arms have to cover the type. -/
structure Alts where
  arms : List Arm
  default : Option Call
deriving DecidableEq, Repr

namespace Alts

/-- The call that is taken for a value built with `ctor`. -/
def select (alts : Alts) (ctor : Ctor) : Option Call :=
  match alts.arms.find? fun arm => arm.ctor.same ctor with
  | some arm => some arm.call
  | none => alts.default

/-- All calls, those of the arms first. -/
def calls (alts : Alts) : List Call := alts.arms.map Arm.call ++ alts.default.toList

def mapCalls (f : Call → Call) (alts : Alts) : Alts :=
  ⟨alts.arms.map fun arm => ⟨arm.ctor, f arm.call⟩, alts.default.map f⟩

end Alts

inductive Code where
  | done (tail : Tail)
  | bind (vars : List Temp) (tail : Tail) (rest : Code)
  /-- Goes on, knowing that `a` was built with `ctor`. -/
  | assert (a : Atom) (ctor : Ctor) (rest : Code)
  | branch (test : Atom) (yes no : Call)
  | switch (a : Atom) (alts : Alts)
deriving DecidableEq, Repr

namespace Code

def jump (c : Call) : Code := done (.call c)

/-- The number of statements. -/
def size : Code → Nat
  | bind _ _ rest | assert _ _ rest => rest.size + 1
  | _ => 1

def endTail? : Code → Option Tail
  | done t => some t
  | bind _ _ rest | assert _ _ rest => rest.endTail?
  | branch .. | switch .. => none

/-- The calls that may end the code. -/
def endCalls : Code → List Call
  | done (.call c) => [c]
  | done _ => []
  | bind _ _ rest | assert _ _ rest => rest.endCalls
  | branch _ yes no => [yes, no]
  | switch _ alts => alts.calls

/-- Straight-line code with at most `limit` bindings. -/
def isSmall : Code → Nat → Bool
  | done _, _ => true
  | bind .., 0 => false
  | bind _ _ rest, limit + 1 => rest.isSmall limit
  | assert _ _ rest, limit => rest.isSmall limit
  | branch .., _ | switch .., _ => false

/-- Goes on with `next`, with `vars` bound to what the code returned. -/
def andThen (code : Code) (vars : List Temp) (next : Code) : Except Fault Code :=
  match code with
  | done tail => .ok (bind vars tail next)
  | bind vs tail rest => (rest.andThen vars next).map (bind vs tail)
  | assert a ctor rest => (rest.andThen vars next).map (assert a ctor)
  | branch .. => .error (.notStraightLine .conditional)
  | switch .. => .error (.notStraightLine .case)

/-- Substitutes in every atom. Bound variables are left alone. -/
def apply (s : Subst) : Code → Code
  | done t => done (t.apply s)
  | bind vars tail rest => bind vars (tail.apply s) (rest.apply s)
  | assert a ctor rest => assert (s.apply a) ctor (rest.apply s)
  | branch test yes no => branch (s.apply test) (yes.apply s) (no.apply s)
  | switch a alts => switch (s.apply a) (alts.mapCalls (Call.apply s))

/-- A copy with fresh bound variables. The renaming is added to the substitution. -/
def copyFresh : Code → Temps → Subst → Code × Temps × Subst
  | bind vars tail rest, m, s =>
    let (fresh, m) := m.freshLikeAll vars
    let (copy, m, s') := rest.copyFresh m (s.renameAll vars fresh)
    (bind fresh (tail.apply s) copy, m, s')
  | assert a ctor rest, m, s =>
    let (copy, m, s') := rest.copyFresh m s
    (assert (s.apply a) ctor copy, m, s')
  | done t, m, s => (done (t.apply s), m, s)
  | branch test yes no, m, s => (branch (s.apply test) (yes.apply s) (no.apply s), m, s)
  | switch a alts, m, s => (switch (s.apply a) (alts.mapCalls (Call.apply s)), m, s)

def tails : Code → List Tail
  | done t => [t]
  | bind _ tail rest => tail :: rest.tails
  | assert _ _ rest => rest.tails
  | branch .. | switch .. => []

def mapTails (f : Tail → Tail) : Code → Code
  | done t => done (f t)
  | bind vars tail rest => bind vars (f tail) (rest.mapTails f)
  | assert a ctor rest => assert a ctor (rest.mapTails f)
  | branch test yes no => branch test yes no
  | switch a alts => switch a alts

/-- All block calls: those in tails and those of the branches. -/
def calls : Code → List Call
  | done t => t.call?.toList
  | bind _ tail rest => tail.call?.toList ++ rest.calls
  | assert _ _ rest => rest.calls
  | branch _ yes no => [yes, no]
  | switch _ alts => alts.calls

/-- Changes the calls of the branches. -/
def mapBranches (f : Call → Call) : Code → Code
  | done t => done t
  | bind vars tail rest => bind vars tail (rest.mapBranches f)
  | assert a ctor rest => assert a ctor (rest.mapBranches f)
  | branch test yes no => branch test (f yes) (f no)
  | switch a alts => switch a (alts.mapCalls f)

/-- Changes all block calls: those in tails and those of the branches. -/
def mapCalls (f : Call → Call) (code : Code) : Code :=
  (code.mapTails (Tail.mapCall f)).mapBranches f

/-- The atoms that are read, in order. -/
def atoms : Code → List Atom
  | done t => t.atoms
  | bind _ tail rest => tail.atoms ++ rest.atoms
  | assert a _ rest => a :: rest.atoms
  | branch test yes no => test :: (yes.args ++ no.args)
  | switch a alts => a :: alts.calls.flatMap Call.args

def boundTemps : Code → List Temp
  | bind vars _ rest => vars ++ rest.boundTemps
  | assert _ _ rest => rest.boundTemps
  | _ => []

def varsText : List Temp → String
  | [v] => v.text
  | vars => s!"[{tempsText vars}]"

/-- One statement a line, each line after the same margin. -/
def lines (margin : String) : Code → List String
  | done t => [margin ++ t.text]
  | bind vars tail rest => s!"{margin}{varsText vars} <- {tail.text}" :: rest.lines margin
  | assert a ctor rest => s!"{margin}assert {a.text} {ctor.name}" :: rest.lines margin
  | branch test yes no => [s!"{margin}if {test.text} then {yes.text} else {no.text}"]
  | switch a alts =>
    s!"{margin}case {a.text} of" ::
      (alts.arms.map (fun arm => s!"{margin}    {arm.ctor.name} -> {arm.call.text}") ++
        alts.default.toList.map fun c => s!"{margin}    _ -> {c.text}")

def indented (code : Code) (n : Nat) : String :=
  "\n".intercalate (code.lines ("".pushn ' ' n))

def text (code : Code) : String := code.indented 0

end Code

end MonadicIR
