import ApiTypes.TypeExpr.Basic

/-!
# References

The names that a type expression mentions at any depth, the component namespace left out.
-/

namespace ApiTypes.TypeExpr

mutual

def references : TypeExpr → List String
  | identifier _ name => [componentName name]
  | literal _ _ => []
  | array _ element => element.references
  | union _ members | intersection _ members => memberReferences members
  | generic _ base params => base.references ++ memberReferences params
  | object _ properties _ => propertyReferences properties

def memberReferences : List TypeExpr → List String
  | [] => []
  | t :: ts => t.references ++ memberReferences ts

def propertyReferences : List (String × TypeExpr) → List String
  | [] => []
  | (_, t) :: rest => t.references ++ propertyReferences rest

end

theorem memberReferences_eq_flatMap (ts : List TypeExpr) :
    memberReferences ts = ts.flatMap references := by
  induction ts with
  | nil => rfl
  | cons t ts ih => simp [memberReferences, ih]

theorem propertyReferences_eq_flatMap (ps : List (String × TypeExpr)) :
    propertyReferences ps = ps.flatMap fun p => p.2.references := by
  induction ps with
  | nil => rfl
  | cons p ps ih => simp [propertyReferences, ih]

end ApiTypes.TypeExpr
