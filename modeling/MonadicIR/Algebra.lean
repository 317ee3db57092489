import MonadicIR.Facts

namespace MonadicIR

namespace Facts

/-- The base and the offset, where a variable is known to hold a sum with a constant. -/
def sumOf? (fs : Facts) (t : Temp) : Option (Atom × Word) :=
  match fs.lookupTail t with
  | some (.prim .add [base, .word n]) => some (base, n)
  | _ => none

/-- Goes from `t + offset` along known sums, up to an offset of zero or a base of which no sum is
known. `none` says that the walk is longer than the fuel. -/
def followSums (fs : Facts) : Nat → Temp → Word → Option (Atom × Word)
  | 0, _, _ => none
  | fuel + 1, t, offset =>
    if offset = 0 then some (.temp t, 0)
    else
      match fs.sumOf? t with
      | some (.temp u, n) => followSums fs fuel u (n + offset)
      | some (base, n) => some (base, n + offset)
      | none => some (.temp t, offset)

/-- The end of the walk from `t + offset`. A walk with an end meets no variable twice with the same
offset, so its length is bounded; one that goes round among variables has no end. -/
def sumEnd? (fs : Facts) (t : Temp) (offset : Word) : Option (Atom × Word) :=
  fs.followSums (fs.size * UInt64.size + 1) t offset

end Facts

namespace Prim

/-- The value of a call whose arguments are all constants. -/
def fold? (p : Prim) (args : List Atom) : Option Atom :=
  ((args.mapM Atom.scalar?).bind p.compute?).map Atom.ofScalar

/-- The shortest tail for a sum with a constant. -/
def sumTail : Atom → Word → Tail
  | .word w, n => .ret [.word (w + n)]
  | base, n => if n = 0 then .ret [base] else .prim add [base, .word n]

/-- A tail for `x + n` by what is known of `x`, where `n` is not zero. -/
def addLaw? (fs : Facts) (x : Atom) (n : Word) : Option Tail :=
  match x with
  | .temp t =>
    if (fs.sumOf? t).isSome then (fs.sumEnd? t n).map fun (base, n) => sumTail base n else none
  | _ => none

/-- The laws for two arguments, once constants stand on the right. -/
def binaryLaw? (fs : Facts) : Prim → Atom → Atom → Option Tail
  | add, x, y =>
    if y = .word 0 then some (.ret [x]) else y.word?.bind (addLaw? fs x)
  | sub, x, y =>
    if y = .word 0 then some (.ret [x])
    else if x = y then some (.ret [.word 0])
    else y.word?.map fun n => (addLaw? fs x (-n)).getD (.prim add [x, .word (-n)])
  | mul, x, y =>
    if y = .word 1 then some (.ret [x])
    else if y = .word 0 then some (.ret [.word 0])
    else none
  | and, x, y =>
    if y = .word 0 then some (.ret [.word 0])
    else if y = .word (-1) then some (.ret [x])
    else if x = y then some (.ret [x])
    else none
  | or, x, y =>
    if y = .word 0 then some (.ret [x])
    else if y = .word (-1) then some (.ret [.word (-1)])
    else if x = y then some (.ret [x])
    else none
  | xor, x, y =>
    if y = .word 0 then some (.ret [x])
    else if x = y then some (.ret [.word 0])
    else none
  | shl, x, y => if y = .word 0 then some (.ret [x]) else none
  | lshr, x, y => if y = .word 0 then some (.ret [x]) else none
  | band, x, y =>
    if y = .flag true then some (.ret [x])
    else if y = .flag false then some (.ret [.flag false])
    else if x = y then some (.ret [x])
    else none
  | bor, x, y =>
    if y = .flag false then some (.ret [x])
    else if y = .flag true then some (.ret [.flag true])
    else if x = y then some (.ret [x])
    else none
  | eq, x, y | lte, x, y | gte, x, y => if x = y then some (.ret [.flag true]) else none
  | neq, x, y | lt, x, y | gt, x, y => if x = y then some (.ret [.flag false]) else none
  | _, _, _ => none

/-- A negation undoes itself, and a negated comparison is the dual one. -/
def negationLaw? (fs : Facts) (p : Prim) (t : Temp) : Option Tail :=
  match fs.lookupTail t with
  | some (.prim q inner) =>
    match inner with
    | [a] =>
      if q = p then some (.ret [a])
      else if p = bnot then q.dual?.map fun dual => .prim dual inner
      else none
    | _ => if p = bnot then q.dual?.map fun dual => .prim dual inner else none
  | _ => none

/-- A simpler tail for a call that does not fold. A constant on the left of a commutative primitive
goes to the right, which is a change of its own. -/
def law? (fs : Facts) (p : Prim) : List Atom → Option Tail
  | [x, y] =>
    if p.isCommutative && x.isConstant && !y.isConstant then
      some ((p.binaryLaw? fs y x).getD (.prim p [y, x]))
    else p.binaryLaw? fs x y
  | [.temp t] => if p = not ∨ p = neg ∨ p = bnot then p.negationLaw? fs t else none
  | _ => none

/-- A simpler tail for a call, where there is one. -/
def simplify (fs : Facts) (p : Prim) (args : List Atom) : Option Tail :=
  match p.fold? args with
  | some a => some (.ret [a])
  | none => p.law? fs args

end Prim

end MonadicIR
