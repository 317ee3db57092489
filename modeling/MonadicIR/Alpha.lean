import MonadicIR.Defn

namespace MonadicIR

/-- The bound variables of the two sides in pairs, the innermost first. -/
abbrev Pairing := List (Temp × Temp)

namespace Pairing

def bind (env : Pairing) (left right : List Temp) : Pairing := (left.zip right).reverse ++ env

/-- Variables correspond if the innermost pair that has either of them has both, or if neither is
bound and they are the same. -/
def corresponds : Pairing → Temp → Temp → Bool
  | [], a, b => a == b
  | (x, y) :: env, a, b =>
    if a = x ∨ b = y then a == x && b == y else corresponds env a b

end Pairing

namespace Atom

def summary : Atom → Word
  | temp _ => -17
  | word w => w
  | flag b => if b then 71 else -11
  | top r => 97 + Int64.ofNat r.top.index * 7 + Int64.ofNat r.index
  | external name => name.toUTF8.data.toList.foldl (fun sum b => sum * 31 + Int64.ofNat b.toNat) 101

def alpha (env : Pairing) : Atom → Atom → Bool
  | temp a, temp b => env.corresponds a b
  | a, b => a == b

/-- The summary of a list goes on from a seed. -/
def summaryAll (seed : Word) (as : List Atom) : Word :=
  as.foldl (fun sum a => sum * 53 + a.summary) seed

def alphaAll (env : Pairing) : List Atom → List Atom → Bool
  | [], [] => true
  | a :: as, b :: bs => a.alpha env b && alphaAll env as bs
  | _, _ => false

end Atom

namespace Call

def summary (c : Call) : Word := Atom.summaryAll (Int64.ofNat c.target.index) c.args * 33

def alpha (env : Pairing) (c d : Call) : Bool :=
  c.target == d.target && Atom.alphaAll env c.args d.args

end Call

namespace Tail

def summary : Tail → Word
  | ret args => Atom.summaryAll 1 args
  | enter f args => Atom.summaryAll (Atom.summaryAll 3 [f]) args
  | call c => c.summary
  | data ctor args => Atom.summaryAll (Int64.ofNat ctor.tag) args * 33 + 2
  | closure k args => Atom.summaryAll (Int64.ofNat k.index) args * 33 + 3
  | sel ctor field a => (4 + Int64.ofNat ctor.tag + Int64.ofNat field) * 53 + a.summary
  | prim p args => Atom.summaryAll (Int64.ofNat p.number) args * 33 + 1

def alpha (env : Pairing) : Tail → Tail → Bool
  | ret as, ret bs => Atom.alphaAll env as bs
  | enter f as, enter g bs => f.alpha env g && Atom.alphaAll env as bs
  | call c, call d => c.alpha env d
  | data c as, data d bs => c.same d && Atom.alphaAll env as bs
  | closure k as, closure l bs => k == l && Atom.alphaAll env as bs
  | sel c n a, sel d m b => c.same d && n == m && a.alpha env b
  | prim p as, prim q bs => p == q && Atom.alphaAll env as bs
  | _, _ => false

end Tail

namespace Alts

def summary (alts : Alts) : Word :=
  alts.arms.foldr (fun arm next => 3 + arm.call.summary * 7 + next * 13)
    (alts.default.elim 19 Call.summary)

def alphaArms (env : Pairing) : List Arm → List Arm → Bool
  | [], [] => true
  | a :: as, b :: bs => a.ctor.same b.ctor && a.call.alpha env b.call && alphaArms env as bs
  | _, _ => false

def alphaDefault (env : Pairing) : Option Call → Option Call → Bool
  | some c, some d => c.alpha env d
  | none, none => true
  | _, _ => false

def alpha (env : Pairing) (x y : Alts) : Bool :=
  alphaDefault env x.default y.default && alphaArms env x.arms y.arms

end Alts

namespace Code

def summary : Code → Word
  | done t => t.summary * 17 + 3
  | bind _ tail rest => tail.summary * 17 + rest.summary * 11 + 511
  | assert _ ctor rest => Int64.ofNat ctor.tag * 7 + rest.summary * 13 + 257
  | branch _ yes no => yes.summary * 3 + no.summary * 23
  | switch _ alts => alts.summary * 5 + 41

def alpha : Code → Code → Pairing → Bool
  | done t, done u, env => t.alpha env u
  | bind vs t c, bind ws u d, env =>
    vs.length == ws.length && t.alpha env u && c.alpha d (env.bind vs ws)
  | assert a c r, assert b d s, env => c.same d && a.alpha env b && r.alpha s env
  | branch a t f, branch b u g, env => a.alpha env b && t.alpha env u && f.alpha env g
  | switch a x, switch b y, env => a.alpha env b && x.alpha env y
  | _, _, _ => false

end Code

namespace Block

def summary (b : Block) : Word := b.code.summary

/-- The bodies are equivalent, with parameters matched by position. -/
def alphaEquiv (b c : Block) : Bool :=
  b.params.length == c.params.length && b.code.alpha c.code (Pairing.bind [] b.params c.params)

end Block

namespace Closure

def summary (k : Closure) : Word := k.tail.summary

def alphaEquiv (k l : Closure) : Bool :=
  k.stored.length == l.stored.length && k.params.length == l.params.length &&
    k.tail.alpha (Pairing.bind (Pairing.bind [] k.stored l.stored) k.params l.params) l.tail

end Closure

namespace TopLevel

def summary (t : TopLevel) : Word := t.tail.summary

def alphaEquiv (t u : TopLevel) : Bool :=
  t.lhs.length == u.lhs.length && t.tail.alpha [] u.tail

end TopLevel

end MonadicIR
