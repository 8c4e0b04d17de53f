import DefUse.Association.Basic
import DefUse.Association.Block
import DefUse.Sorted

/-!
# Associations on the heap

Nothing is known about the order of accesses to the heap: every definition of a field, of array
elements or of an object is associated with every use of a location that may be the same.

**Results.** `Program.heapAssociations` lists them.
-/

namespace DefUse

/-- Fields that never carry data of the user: the blank one and the context of a closure. -/
def compilerFields : List String := ["_", "$outer"]

namespace Settings

/-- A variable of the heap that the settings ask for. -/
def tracks (s : Settings) (v : Variable) : Bool :=
  if v.kind = .field then !compilerFields.contains v.name && !s.excludedFields.contains v.name
  else if v.kind = .element then true
  else if v.kind = .object then s.includeObjects
  else false

end Settings

namespace Program

/-- A definition of the first variable may write what a use of the second one reads. -/
def heapMayAlias (prog : Program) (a b : Variable) : Bool :=
  if a.kind ≠ b.kind then false
  else if a.kind ≠ .object then a.mayEqual b
  else
    let types := prog.possibleTypes b
    (prog.possibleTypes a).any types.contains

def points (prog : Program) : List Point :=
  prog.procIds.flatMap fun p => (prog.proc p).ids.map fun i => ⟨p, i⟩

/-- The definitions on the heap that are tracked, in order. -/
def heapDefs (prog : Program) (s : Settings) : List Def :=
  sortDistinct Def.less
    ((prog.points.flatMap (prog.defsAt s.formalsAsDefs)).filter fun d => s.tracks d.var)

/-- The uses on the heap that are tracked, in order. -/
def heapUses (prog : Program) (s : Settings) : List Use :=
  sortDistinct Use.less
    ((prog.points.flatMap fun r => (prog.proc r.proc).usesOf r).filter fun u => s.tracks u.var)

/-- The associations of definitions and uses on the heap, in order. -/
def heapAssociations (prog : Program) (s : Settings) : List Association :=
  let uses := prog.heapUses s
  (prog.heapDefs s).flatMap fun d =>
    (uses.filter fun u => prog.heapMayAlias d.var u.var).map fun u =>
      { definition := d, use := u, heap := true }

end Program

end DefUse
