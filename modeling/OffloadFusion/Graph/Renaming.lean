import OffloadFusion.Graph.Error

/-!
# Renamings

A `Renaming` sends finitely many instructions to others. `insert` gives one instruction a new image
and keeps all others.
-/

namespace OffloadFusion

/-- Finitely many instructions with their images; each stands once. -/
structure Renaming where
  pairs : List (InstrId × InstrId)
deriving DecidableEq, Repr

namespace Renaming

def empty : Renaming := ⟨[]⟩

/-- The image of an instruction, if it has one. -/
def image? (r : Renaming) (i : InstrId) : Option InstrId := r.pairs.lookup i

def contains (r : Renaming) (i : InstrId) : Bool := (r.image? i).isSome

/-- Gives an instruction an image, in place of the one it had. -/
def insert (r : Renaming) (i image : InstrId) : Renaming :=
  if r.contains i then ⟨r.pairs.map fun (j, k) => if j = i then (j, image) else (j, k)⟩
  else ⟨r.pairs ++ [(i, image)]⟩

/-- The image of an instruction that must have one. -/
def image (r : Renaming) (i : InstrId) : Outcome GraphError InstrId :=
  match r.image? i with
  | some image => return image
  | none => refuse (.unknownInstruction i)

end Renaming

end OffloadFusion
