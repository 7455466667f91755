/-
This file defines which repairs may be used. Only copies into fresh registers cannot be
turned off: without them a run that conflicts could not be mended at all.
-/

namespace RegisterChains

structure Options where
  /-- Read a run in another order through its swizzle. -/
  reorderOperands : Bool
  substituteConstants : Bool
  relaxEncodings : Bool
  reuseCopies : Bool
  packCopies : Bool
  hoistUniformCopies : Bool
  recycleDeadCopies : Bool
  verifyAssignments : Bool
deriving DecidableEq, Repr

namespace Options

/-- Every repair, with checked assignments. -/
def standard : Options := ⟨true, true, true, true, true, true, true, true⟩

/-- Copies into fresh registers only, with checked assignments. -/
def copiesOnly : Options := ⟨false, false, false, false, false, false, false, true⟩

def ofName? : String → Option Options
  | "default" => some standard
  | "copies_only" => some copiesOnly
  | _ => none

end Options

end RegisterChains
