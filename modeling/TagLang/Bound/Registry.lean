import TagLang.Table
import TagLang.Ty

/-! # The types of a module -/

namespace TagLang

structure VariantInfo where
  name : String
  payload : Option Ty
deriving DecidableEq, Repr, Inhabited

structure MethodInfo where
  id : String
  params : List Ty
  returnType : Ty
deriving DecidableEq, Repr, Inhabited

structure ClassInfo where
  members : Table Ty := {}
  methods : Table MethodInfo := {}
deriving Repr, Inhabited

structure Registry where
  sumTypes : Table (List VariantInfo) := {}
  classes : Table ClassInfo := {}
  interfaces : Table Unit := {}
deriving Repr, Inhabited

namespace Registry

def variantsOf? (r : Registry) : Ty → Option (List VariantInfo)
  | .named name _ => r.sumTypes.get? name
  | _ => none

def variant? (r : Registry) (owner name : String) : Option VariantInfo := do
  (← r.sumTypes.get? owner).find? (·.name = name)

def owners (r : Registry) (variant : String) : List String :=
  (r.sumTypes.entries.filter fun (_, variants) => variants.any (·.name = variant)).map (·.1)

def uniqueOwner? (r : Registry) (variant : String) : Option String :=
  match r.owners variant with
  | [owner] => some owner
  | _ => none

def ownerFor? (r : Registry) (name : String) (expected : Ty) : Option String :=
  match expected, r.variantsOf? expected with
  | .named owner _, some variants => if variants.any (·.name = name) then some owner else none
  | _, _ => r.uniqueOwner? name

def method? (r : Registry) (className name : String) : Option MethodInfo := do
  (← r.classes.get? className).methods.get? name

end Registry

end TagLang
