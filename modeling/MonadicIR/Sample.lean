import MonadicIR.Program

namespace MonadicIR

structure Sample where
  name : String
  description : String
  datatypes : List DataType
  make : Edit Unit

namespace Sample

scoped instance : Coe Temp Atom := ⟨.temp⟩

scoped instance : Coe Bool Atom := ⟨.flag⟩

scoped instance (n : Nat) : OfNat Atom n := ⟨.word (Int64.ofNat n)⟩

def listType : DataType := .declare 0 "List" [("Nil", 0), ("Cons", 2)]

def nil : Ctor := ⟨0, 0, 0, 2, "Nil"⟩

def cons : Ctor := ⟨0, 1, 2, 2, "Cons"⟩

def choiceType : DataType := .declare 0 "Choice" [("Yes", 0), ("No", 0)]

def yes : Ctor := ⟨0, 0, 0, 2, "Yes"⟩

def no : Ctor := ⟨0, 1, 0, 2, "No"⟩

def colourType : DataType := .declare 0 "Colour" [("Red", 0), ("Green", 0), ("Blue", 0)]

def red : Ctor := ⟨0, 0, 0, 3, "Red"⟩

def green : Ctor := ⟨0, 1, 0, 3, "Green"⟩

def blue : Ctor := ⟨0, 2, 0, 3, "Blue"⟩

abbrev Binding := List Temp × Tail

/-- A straight line of bindings that ends in `last`. -/
def line (bindings : List Binding) (last : Code) : Code :=
  bindings.foldr (fun (vars, tail) rest => .bind vars tail rest) last

def returning (a : Atom) : Code := .done (.ret [a])

def goto (b : BlockId) (args : List Atom) : Code := .jump ⟨b, args⟩

def call (b : BlockId) (args : List Atom) : Tail := .call ⟨b, args⟩

def newBlock (params : List Temp) (code : Code) : Edit BlockId :=
  Edit.addBlock { params, code }

def declareBlock : Edit BlockId := Edit.addBlock .placeholder

def newTop (name : String) (tail : Tail) : Edit Atom := do
  let t ← Edit.addTop { lhs := [⟨name, none⟩], tail }
  return .top ⟨t, 0⟩

def entrypoint (b : BlockId) : Edit Unit := modify fun p => p.addEntrypoint (.block b)

/-- Prints its argument and returns it. -/
def printAndReturn : Edit BlockId := do
  let n ← Edit.fresh
  newBlock [n] (line [([], .prim .print [n])] (returning n))

/-- Adds up a list, starting from the second argument. -/
def listSum : Edit BlockId := do
  let sum ← declareBlock
  let onCons ← declareBlock
  let onNil ← declareBlock
  let xs ← Edit.fresh
  let acc ← Edit.fresh
  Edit.defineBlock sum [xs, acc]
    (.switch xs ⟨[⟨cons, ⟨onCons, [xs, acc]⟩⟩], some ⟨onNil, [acc]⟩⟩)
  let ys ← Edit.fresh
  let a ← Edit.fresh
  let h ← Edit.fresh
  let t ← Edit.fresh
  let s ← Edit.fresh
  Edit.defineBlock onCons [ys, a]
    (line [([h], .sel cons 0 ys), ([t], .sel cons 1 ys), ([s], .prim .add [a, h])]
      (goto sum [t, s]))
  let r ← Edit.fresh
  Edit.defineBlock onNil [r] (returning r)
  return sum

/-- Puts the words in front of `list`, the last one first. -/
def consAll : List Atom → Temp → Edit (List Binding × Temp)
  | [], list => return ([], list)
  | w :: ws, list => do
    let cell ← Edit.fresh
    let (bindings, whole) ← consAll ws cell
    return (([cell], .data cons [w, list]) :: bindings, whole)

/-- Bindings that build a list, and the variable that holds it. -/
def listOf (words : List Atom) : Edit (List Binding × Temp) := do
  let empty ← Edit.fresh
  let (bindings, list) ← consAll words.reverse empty
  return (([empty], .data nil []) :: bindings, list)

def makeValue (ctor : Ctor) : Edit BlockId := do
  let v ← Edit.fresh
  newBlock [] (line [([v], .data ctor [])] (returning v))

/-- Takes a flag and builds a value with one of two constructors. -/
def pick (onTrue onFalse : Ctor) : Edit BlockId := do
  let t ← makeValue onTrue
  let f ← makeValue onFalse
  let flag ← Edit.fresh
  newBlock [flag] (.branch flag ⟨t, []⟩ ⟨f, []⟩)

/-- Picks a constructor by the word at address zero and hands the value to `use`. -/
def pickAndUse (onTrue onFalse : Ctor) (use : BlockId) : Edit Unit := do
  let w ← Edit.fresh
  let z ← Edit.fresh
  let c ← Edit.fresh
  let choose ← pick onTrue onFalse
  let main ← newBlock [] (line
    [([w], .prim .load [0]), ([z], .prim .eq [w, 0]), ([c], call choose [z])] (goto use [c]))
  entrypoint main

def selKnown : Edit Unit := do
  let h ← Edit.fresh
  let t ← Edit.fresh
  let x ← Edit.fresh
  let y ← Edit.fresh
  let head ← newBlock [h, t] (line
    [([x], .data cons [h, t]), ([y], .sel cons 0 x), ([], .prim .print [y])] (returning y))
  let n ← Edit.fresh
  let main ← newBlock [] (line [([n], .data nil [])] (goto head [7, n]))
  entrypoint main
  entrypoint head

def constIf : Edit Unit := do
  let print ← printAndReturn
  let onTrue ← newBlock [] (goto print [1])
  let onFalse ← newBlock [] (goto print [0])
  let x ← Edit.fresh
  let main ← newBlock [] (line [([x], .prim .lt [3, 5])] (.branch x ⟨onTrue, []⟩ ⟨onFalse, []⟩))
  entrypoint main

def dupBlocks : Edit Unit := do
  let p ← Edit.fresh
  let q ← Edit.fresh
  let first ← newBlock [p] (returning p)
  let second ← newBlock [q] (returning q)
  let r ← Edit.fresh
  let s ← Edit.fresh
  let main ← newBlock [] (line
    [([r], call first [5]), ([s], call second [r]), ([], .prim .print [s])] (returning s))
  entrypoint main

def sameAlts : Edit Unit := do
  let print ← printAndReturn
  let c ← Edit.fresh
  let use ← newBlock [c]
    (.switch c ⟨[⟨yes, ⟨print, [10]⟩⟩, ⟨no, ⟨print, [10]⟩⟩], none⟩)
  pickAndUse yes no use

def knownCons : Edit Unit := do
  let sum ← listSum
  let (bindings, list) ← listOf [1, 2, 3]
  let total ← Edit.fresh
  let main ← newBlock [] (line
    (bindings ++ [([total], call sum [list, 0]), ([], .prim .print [total])]) (returning total))
  entrypoint main

def mapClosure : Edit Unit := do
  let sum ← listSum
  let n ← Edit.fresh
  let x ← Edit.fresh
  let add ← Edit.addClosure { stored := [n], params := [x], tail := .prim .add [n, x] }
  let map ← declareBlock
  let mapCons ← declareBlock
  let mapNil ← declareBlock
  let f ← Edit.fresh
  let xs ← Edit.fresh
  Edit.defineBlock map [f, xs]
    (.switch xs ⟨[⟨cons, ⟨mapCons, [f, xs]⟩⟩, ⟨nil, ⟨mapNil, []⟩⟩], none⟩)
  let f ← Edit.fresh
  let xs ← Edit.fresh
  let h ← Edit.fresh
  let t ← Edit.fresh
  let h' ← Edit.fresh
  let t' ← Edit.fresh
  let r ← Edit.fresh
  Edit.defineBlock mapCons [f, xs] (line
    [([h], .sel cons 0 xs), ([t], .sel cons 1 xs), ([h'], .enter f [h]),
      ([t'], call map [f, t]), ([r], .data cons [h', t'])] (returning r))
  let empty ← Edit.fresh
  Edit.defineBlock mapNil [] (line [([empty], .data nil [])] (returning empty))
  let (bindings, list) ← listOf [1, 2]
  let g ← Edit.fresh
  let mapped ← Edit.fresh
  let total ← Edit.fresh
  let main ← newBlock [] (line
    (bindings ++ [([g], .closure add [10]), ([mapped], call map [g, list]),
      ([total], call sum [mapped, 0]), ([], .prim .print [total])]) (returning total))
  entrypoint main

def countdown : Edit Unit := do
  let count ← declareBlock
  let step ← declareBlock
  let stop ← newBlock [] (returning 0)
  let n ← Edit.fresh
  let z ← Edit.fresh
  Edit.defineBlock count [n]
    (line [([z], .prim .eq [n, 0])] (.branch z ⟨stop, []⟩ ⟨step, [n]⟩))
  let n ← Edit.fresh
  let m ← Edit.fresh
  Edit.defineBlock step [n]
    (line [([], .prim .print [n]), ([m], .prim .sub [n, 1])] (goto count [m]))
  let main ← newBlock [] (goto count [3])
  entrypoint main

def flags : Edit Unit := do
  let onTrue ← newBlock [] (returning true)
  let onFalse ← newBlock [] (returning false)
  let b ← Edit.fresh
  let check ← newBlock [b] (.branch b ⟨onTrue, []⟩ ⟨onFalse, []⟩)
  let x ← Edit.fresh
  let t ← Edit.fresh
  let r ← Edit.fresh
  let big ← newBlock [x] (line
    [([], .prim .print [x]), ([t], .prim .gte [x, 0]), ([r], call check [t])] (returning r))
  let x ← Edit.fresh
  let small ← newBlock [x] (line [([], .prim .print [0])] (returning false))
  let w ← Edit.fresh
  let g ← Edit.fresh
  let ng ← Edit.fresh
  let main ← newBlock [] (line
    [([], .prim .store [8, 5]), ([w], .prim .load [8]), ([g], .prim .gt [w, 3]),
      ([ng], .prim .bnot [g])] (.branch ng ⟨small, [w]⟩ ⟨big, [w]⟩))
  entrypoint main

def exhaustive : Edit Unit := do
  let print ← printAndReturn
  let c ← Edit.fresh
  let use ← newBlock [c]
    (.switch c ⟨[⟨red, ⟨print, [1]⟩⟩, ⟨green, ⟨print, [2]⟩⟩], some ⟨print, [3]⟩⟩)
  pickAndUse blue red use

def dupArgs : Edit Unit := do
  let pair ← declareBlock
  let print ← printAndReturn
  let a ← Edit.fresh
  let b ← Edit.fresh
  let s ← Edit.fresh
  let i ← Edit.fresh
  Edit.defineBlock pair [a, b, i] (line [([s], .prim .add [a, b])]
    (.branch i ⟨pair, [s, s, false]⟩ ⟨print, [s]⟩))
  let w ← Edit.fresh
  let r ← Edit.fresh
  let main ← newBlock [] (line
    [([], .prim .store [0, 21]), ([w], .prim .load [0]), ([r], call pair [w, w, true])]
    (returning r))
  entrypoint main

def tops : Edit Unit := do
  let empty ← newTop "empty" (.data nil [])
  let one ← newTop "one" (.data cons [1, empty])
  let answer ← newTop "answer" (.prim .add [40, 2])
  let h ← Edit.fresh
  let r ← Edit.fresh
  let main ← newBlock [] (line
    [([h], .sel cons 0 one), ([r], .prim .add [answer, h]), ([], .prim .print [r])]
    (returning r))
  entrypoint main

def all : List Sample := [
  ⟨"sel-known", "select a field from a value built just before", [listType], selKnown⟩,
  ⟨"const-if", "branch on a comparison of constants", [], constIf⟩,
  ⟨"dup-blocks", "two blocks that only differ in their variable names", [], dupBlocks⟩,
  ⟨"same-alts", "a case whose alternatives all do the same thing", [choiceType], sameAlts⟩,
  ⟨"known-cons", "sum a list that is built in the same program", [listType], knownCons⟩,
  ⟨"map-closure", "map a closure over a list, then sum the result", [listType], mapClosure⟩,
  ⟨"countdown", "a loop printing 3, 2, 1", [], countdown⟩,
  ⟨"flags", "comparisons, negated comparisons and flag-returning conditionals", [], flags⟩,
  ⟨"exhaustive", "a case with a default that can only match one constructor", [colourType],
    exhaustive⟩,
  ⟨"dup-args", "a call passing the same variable twice", [], dupArgs⟩,
  ⟨"tops", "top-level allocations and constants", [listType], tops⟩]

def find? (name : String) : Option Sample := all.find? fun s => s.name == name

def build (s : Sample) : Except Fault Program :=
  match s.make { datatypes := s.datatypes.toArray } with
  | .ok _ p => .ok p
  | .error f _ => .error f

end Sample

end MonadicIR
