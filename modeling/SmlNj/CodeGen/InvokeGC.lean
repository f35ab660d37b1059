import SmlNj.Basics.LambdaVar
import SmlNj.CodeGen.Cfg
import SmlNj.Library.RedBlackMap

/-!
# Invoking the garbage collector

The code that packs the live values into a fixed number of roots, calls the collector and unpacks
the values from the new roots.  Values with a uniform representation are roots themselves while
there are enough of them; the others, and all raw values, travel in a record.

The functions of a compilation unit share the code that invokes the garbage collector: there is one
cluster for all those with the same signature, where the types of uniform representation count as
equal.

## Main definitions

* `assignRoots` — what the roots hold.
* `callGC` — the code.
* `compareSig` — the order of the signatures.
* `invokeStdGC` — the call of the shared code.
* `getCompUnitCode` — the clusters.
-/

namespace SmlNj

namespace ObjectDesc

def tagWidth : ℕ := 7

def mkTag (t : ℕ) : ℕ := t <<< 2 ||| 2

def tagRecord : ℕ := mkTag 0

def tagRaw : ℕ := mkTag 4

def tagMixed : ℕ := mkTag 5

def makeDesc (len tag : ℕ) : ℤ := (len <<< tagWidth ||| tag : ℕ)

/-- The descriptor of a record of uniform values followed by raw ones. -/
def makeMixedDesc (ptrLen rawLen : ℕ) : Except Exn ℤ :=
  if ptrLen = 0 ∨ rawLen = 0 then .error .fail
  else .ok (ptrLen <<< 32 ||| ((ptrLen + rawLen) <<< tagWidth ||| tagMixed) : ℕ)

end ObjectDesc

namespace InvokeGC

open CFG LambdaVar ObjectDesc

def numCalleeSaves : ℕ := 3

def numGCRoots : ℕ := 4 + numCalleeSaves

def unit : Exp := .num 1 Target.mlValueSz

def record (desc : ℤ) : Prim.Alloc := .record desc false

def rawSelect (nk : Prim.Numkind) (sz n : ℕ) (rr : Exp) : Exp := .pure (.rawSelect nk sz n) [rr]

/-! ### The layout of the roots -/

/-- What a root holds, by the indices of the parameters. -/
inductive Root
  | unit
  | ptr (ix : ℕ)
  | record (roots : List ℕ) (raw : List (ℕ × Prim.Numkind))
  deriving DecidableEq

/-- The order for functions: link, closure, continuation, callee-saves, argument. -/
def stdRootOrder : List ℕ := List.range numGCRoots

/-- The order for continuations, whose first parameter is the continuation. -/
def contRootOrder : List ℕ :=
  2 :: ((List.range (numCalleeSaves + 1)).map fun i => 3 + i) ++ [0, 1]

/-- The parameters with uniform representation and the raw ones. -/
def split : ℕ → List Param → List ℕ → List (ℕ × Prim.Numkind) →
    Except Exn (ℕ × List ℕ × List (ℕ × Prim.Numkind))
  | ix, ⟨_, ty⟩ :: params, boxed, raw =>
    let doRaw (kind : Prim.Numkind) (sz : ℕ) :=
      if sz = 64 then split (ix + 1) params boxed ((ix, kind) :: raw) else .error .impossible
    match ty with
    | .numt sz => doRaw .int sz
    | .fltt sz => doRaw .flt sz
    | _ => split (ix + 1) params (ix :: boxed) raw
  | ix, [], boxed, raw => .ok (ix, boxed.reverse, raw.reverse)

/-- Assign roots to parameters, and one more to a record. -/
def assignLoop (extra : Option Root) : List Root → List ℕ → List ℕ → Except Exn (List Root)
  | gcRoots, id :: ids, ix :: ixs => assignLoop extra (gcRoots.set id (.ptr ix)) ids ixs
  | gcRoots, ids, [] =>
    match ids, extra with
    | id :: _, some root => .ok (gcRoots.set id root)
    | _, none => .ok gcRoots
    | _, _ => .error .fail
  | _, [], _ => .error .fail

/-- **The layout of the roots**, with the number of parameters. -/
def assignRoots (isCont : Bool) (params : List Param) : Except Exn (ℕ × List Root) := do
  let (n, boxed, raw) ← split 0 params [] []
  let gcRoots := List.replicate numGCRoots Root.unit
  let rootIds := if isCont then contRootOrder else stdRootOrder
  let assignBoxed (boxed : List ℕ) (extra : Option Root) := assignLoop extra gcRoots rootIds boxed
  let roots ←
    if raw.length = 0 then
      if boxed.length ≤ numGCRoots then assignBoxed boxed none
      else
        let (boxed, excess) := boxed.splitAt (numGCRoots - 1)
        assignBoxed boxed (some (.record excess []))
    else if boxed.length < numGCRoots then assignBoxed boxed (some (.record [] raw))
    else
      let (boxed, excess) := boxed.splitAt (numGCRoots - 1)
      assignBoxed boxed (some (.record excess raw))
  return (n, roots)

/-- The raw values of the record `x` from the `ix`th word on. -/
def unpackRaw (x : Lvar) : ℕ → List (ℕ × Prim.Numkind) → List Exp → List Exp
  | ix, (jx, nk) :: rs, results =>
    unpackRaw x (ix + 1) rs (results.set jx (rawSelect nk 64 (8 * ix) (.var x)))
  | _, [], results => results

/-- The values of the record `x` from the `ix`th word on. -/
def unpackRoots (x : Lvar) (raw : List (ℕ × Prim.Numkind)) : ℕ → List ℕ → List Exp → List Exp
  | ix, jx :: rs, results => unpackRoots x raw (ix + 1) rs (results.set jx (.select ix (.var x)))
  | ix, [], results => unpackRaw x ix raw results

/-- **The live values, from the new roots.** -/
@[grind =] def unpack : List Lvar → List Root → List Exp → Except Exn (List Exp)
  | [], [], results => .ok results
  | _ :: xs, .unit :: rs, results => unpack xs rs results
  | x :: xs, .ptr ix :: rs, results => unpack xs rs (results.set ix (.var x))
  | x :: xs, .record roots raw :: rs, results => unpack xs rs (unpackRoots x raw 0 roots results)
  | _, _, _ => .error .nomatch

section Pack

variable (live : List Param)

def getLive (ix : ℕ) : Except Exn Exp :=
  match live[ix]? with
  | some p => .ok (.var p.name)
  | none => .error .subscript

def getLives (ixs : List ℕ) : Except Exn (List Exp) := ixs.mapM (getLive live)

/-- **The roots, from the live values**, and the call of the collector. -/
def pack (newRoots : List Lvar) (code : Stm) : List Root → List Exp → Supply Stm
  | [], args => return .callgc args.reverse newRoots code
  | .unit :: rs, args => pack newRoots code rs (unit :: args)
  | .ptr ix :: rs, args => do pack newRoots code rs ((← getLive live ix) :: args)
  | .record roots [] :: rs, args => do
    let flds ← getLives live roots
    let desc := makeDesc roots.length tagRecord
    let tpl ← mkLvar
    return .alloc (record desc) flds tpl (← pack newRoots code rs (.var tpl :: args))
  | .record [] raw :: rs, args => do
    let tpl ← mkLvar
    let desc := makeDesc raw.length tagRaw
    let flds ← getLives live (raw.map Prod.fst)
    return .alloc (.rawRecord desc 64 (raw.map fun r => ⟨r.2, 64⟩)) flds tpl
      (← pack newRoots code rs (.var tpl :: args))
  | .record roots raw :: rs, args => do
    let flds ← getLives live (roots ++ raw.map Prod.fst)
    let desc ← makeMixedDesc roots.length raw.length
    let tpl ← mkLvar
    return .alloc (record desc) flds tpl (← pack newRoots code rs (.var tpl :: args))

end Pack

/-- **The code that calls the collector**; the live values are passed to the rest of the code. -/
def callGC (isCont : Bool) (live : List Param) (k : List Exp → Supply Stm) : Supply Stm := do
  let (nParams, roots) ← assignRoots isCont live
  let newRoots ← (List.range numGCRoots).mapM fun _ => mkLvar
  let results ← unpack newRoots roots (List.replicate nParams unit)
  let code ← k results
  pack live newRoots code roots []

/-! ## The cache of shared code for garbage collection -/

open CFG LambdaVar RedBlack

/-- The signature of a point: is it for a continuation, and the types of the parameters. -/
abbrev GcSig := Bool × List Ty

/-- The order of types: those of uniform representation are equal. -/
def cmpTy : Ty → Ty → Ordering
  | .numt s1, .numt s2 => compare s1 s2
  | .fltt s1, .fltt s2 => compare s1 s2
  | .numt _, .fltt _ => .lt
  | .fltt _, .numt _ => .gt
  | _, .numt _ => .lt
  | _, .fltt _ => .lt
  | .numt _, _ => .gt
  | .fltt _, _ => .gt
  | _, _ => .eq

/-- The lexicographic order of lists. -/
def collate {α : Type} (cmp : α → α → Ordering) : List α → List α → Ordering
  | [], [] => .eq
  | [], _ :: _ => .lt
  | _ :: _, [] => .gt
  | a :: as, b :: bs =>
    match cmp a b with
    | .eq => collate cmp as bs
    | order => order

/-- **The order of signatures.** -/
def compareSig : GcSig → GcSig → Ordering
  | (false, _), (true, _) => .lt
  | (true, _), (false, _) => .gt
  | (_, tys1), (_, tys2) => collate cmpTy tys1 tys2

/-- The class of a type: uniform, integer or float, with the size. -/
def classOf : Ty → ℕ ×ₗ ℕ
  | .numt sz => toLex (1, sz)
  | .fltt sz => toLex (2, sz)
  | _ => toLex (0, 0)

def sigKey (gcSig : GcSig) : Bool ×ₗ List (ℕ ×ₗ ℕ) := toLex (gcSig.1, gcSig.2.map classOf)

/-- The labels of the shared code.  The items of the tree are compared by the keys of their
signatures. -/
abbrev Cache := OrdMap (Bool ×ₗ List (ℕ ×ₗ ℕ)) (GcSig × Lvar)

namespace Cache

def new : Cache := OrdMap.empty

def find (gcMap : Cache) (gcSig : GcSig) : Option Lvar :=
  (OrdMap.find gcMap (sigKey gcSig)).map Prod.snd

def insert (gcMap : Cache) (gcSig : GcSig) (lab : Lvar) : Except Exn Cache :=
  match OrdMap.insert gcMap (sigKey gcSig) (gcSig, lab) with
  | .ok gcMap => .ok gcMap
  | .error _ => .error .nomatch

end Cache

def unzip : List Param → List Exp → List Ty → List Exp × List Ty
  | [], args, tys => (args.reverse, tys.reverse)
  | ⟨name, ty⟩ :: params, args, tys => unzip params (.var name :: args) (ty :: tys)

def jmp (isCont : Bool) (args : List Exp) (tys : List Ty) (lab : Lvar) : Stm :=
  if isCont then .throw (.label lab) args tys else .apply (.label lab) args tys

/-- **The call of the shared code** of a signature, which gets a label with its first use. -/
def invokeStdGC (gcMap : Cache) (isCont : Bool) (params : List Param) : Supply (Stm × Cache) := do
  let (args, tys) := unzip params [] []
  let gcSig := (isCont, tys)
  match gcMap.find gcSig with
  | some lab => return (jmp isCont args tys lab, gcMap)
  | none =>
    let lab ← mkLvar
    let gcMap ← gcMap.insert gcSig lab
    return (jmp isCont args tys lab, gcMap)

def invokeStdFunGC (gcMap : Cache) (params : List Param) : Supply (Stm × Cache) :=
  invokeStdGC gcMap false params

def invokeStdContGC (gcMap : Cache) (params : List Param) : Supply (Stm × Cache) :=
  invokeStdGC gcMap true params

def invokeInternalGC (lab : Lvar) (params : List Param) : Supply Stm :=
  callGC false params fun live => return .goto lab live

def hd : List Exp → Supply Exp
  | e :: _ => return e
  | [] => fun _ => .error .empty

/-- The cluster of a signature. -/
def mkCluster (gcSig : GcSig) (lab : Lvar) : Supply Cluster := do
  let (isCont, tys) := gcSig
  let params ← tys.mapM fun ty => do return ⟨← mkLvar, ty⟩
  let frag : Frag ←
    if isCont then
      (do
        let body ← callGC true params fun live => do return .throw (← hd live) live tys
        return ⟨.stdCont, lab, params, body⟩)
    else
      (do
        let body ← callGC false params fun live => do return .apply (← hd live) live tys
        return ⟨.stdFun, lab, params, body⟩)
  let align (a : ℕ) : Ty → ℕ
    | .numt sz => max (sz / 8) a
    | .fltt sz => max (sz / 8) a
    | _ => a
  let alignHP := tys.foldl align Target.alignInBytes
  return ⟨⟨alignHP, false, false, false⟩, [frag]⟩

/-- **The clusters of a compilation unit**, in the order of their signatures; the cache is empty
again. -/
def getCompUnitCode (gcMap : Cache) : Supply (List Cluster × Cache) := do
  let clusters ← gcMap.listItemsi.foldrM (fun item clusters => do
    return (← mkCluster item.2.1 item.2.2) :: clusters) []
  return (clusters, Cache.new)

end InvokeGC

end SmlNj
