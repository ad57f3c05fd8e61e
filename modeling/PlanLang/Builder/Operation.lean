import PlanLang.Builder

/-!
# Operations

The operations of builders as data, so that a run of operations is a list.
-/

namespace PlanLang

/-- The operations that change a builder or may fail. -/
inductive Operation where
  | pushPrimitive (name : String)
  | pushVariable (name : String)
  | pushConstant (name : String)
  | nameAtom (name : String)
  | annotate (ty : Ty)
  | begin (s : Shape)
  | finish (s : Shape)
  | checkEmpty (operation : String)
  | takeType
  | takeTypes
  | takeConstant
  | takeConstants
  | takeVariables
  | takePredicate
  | takeFormula
deriving DecidableEq

/-- The results of operations. -/
inductive Answer where
  | done
  | ty (t : Ty)
  | types (ts : List Ty)
  | const (c : Constant)
  | consts (cs : List Constant)
  | vars (vs : List Variable)
  | predicate (a : Atom)
  | formula (f : Option Formula)
deriving DecidableEq

namespace Operation

/-- Carries out an operation. -/
def run : Operation → Build Answer
  | pushPrimitive name => do Builder.pushPrimitive name; return .done
  | pushVariable name => do Builder.pushVariable name; return .done
  | pushConstant name => do Builder.pushConstant name; return .done
  | nameAtom name => do Builder.nameAtom name; return .done
  | annotate ty => do Builder.annotate ty; return .done
  | begin s => do Builder.begin s; return .done
  | finish s => do Builder.finish s; return .done
  | checkEmpty operation => do Builder.checkEmpty operation; return .done
  | takeType => return .ty (← Builder.takeType)
  | takeTypes => return .types (← Builder.takeTypes)
  | takeConstant => return .const (← Builder.takeConstant)
  | takeConstants => return .consts (← Builder.takeConstants)
  | takeVariables => return .vars (← Builder.takeVariables)
  | takePredicate => return .predicate (← Builder.takePredicate)
  | takeFormula => return .formula (← Builder.takeFormula?)

end Operation

end PlanLang
