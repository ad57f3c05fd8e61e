import PlanLang.Builder.Frame

/-!
# Builders

A builder puts types, atoms and formulas together from operations that arrive in the order
in which a description is read. It holds a stack of frames. Beginning a construct puts an
opening on the stack, a finished value goes on top, and ending a construct replaces its
opening and everything above it by the frame these make up. An operation that fails names
a builder that can be used further.
-/

namespace PlanLang

/-- A stack of frames, the top one first, and the type of declared names that have none. -/
structure Builder where
  defaultType : Option Ty
  frames : List Frame
deriving DecidableEq

/-- An operation on a builder. It may fail, and the builder is there in either case. -/
abbrev Build :=
  EStateM BuildError Builder

/-- The name of the operation that ends a construct. -/
def Shape.endLabel : Shape → String
  | either => "end_either_type_list"
  | atom => "end_predicate"
  | negation => "end_not"
  | conjunction => "end_and"
  | equality => "end_equals"
  | universal => "end_for_all"
  | conditional => "end_if_then"

namespace Builder

/-- The builder without frames. -/
def new (defaultType : Option Ty) : Builder :=
  ⟨defaultType, []⟩

/-- The number of frames. -/
def depth (b : Builder) : Nat :=
  b.frames.length

/-- No frames are left. -/
def isEmpty (b : Builder) : Bool :=
  b.frames.isEmpty

/-- The operation fails and changes nothing. -/
def fail {α : Type} (operation : String) (kind : BuildError.Kind) : Build α :=
  fun b => .error ⟨kind, operation, b.depth⟩ b

/-- Fails unless no frames are left. -/
def checkEmpty (operation : String) : Build Unit :=
  fun b =>
    match b.frames with
    | [] => .ok () b
    | f :: _ => fail operation (.unbalanced f.label) b

/-! ### Putting frames on the stack -/

/-- Puts a frame on top. -/
def push (f : Frame) : Build Unit :=
  fun b => .ok () { b with frames := f :: b.frames }

/-- Puts the type of a single name on top. -/
def pushPrimitive (name : String) : Build Unit :=
  push (.ty (Ty.primitive name))

/-- Puts a variable without a type on top. -/
def pushVariable (name : String) : Build Unit :=
  push (.term (.var (Variable.ofName name)))

/-- Puts a constant without a type on top. -/
def pushConstant (name : String) : Build Unit :=
  push (.term (.const (Constant.ofName name)))

/-- Begins a construct. -/
def begin (s : Shape) : Build Unit :=
  push (.opened (.ofShape s))

/-! ### Names and types of what is being built -/

/-- What the innermost open atom has for a name, if an atom is open. -/
def openName? : List Frame → Option (Option String)
  | [] => none
  | .opened (.atom name) :: _ => some name
  | _ :: fs => openName? fs

/-- The frames with a name for the innermost open atom. -/
def fillName (name : String) : List Frame → List Frame
  | [] => []
  | .opened (.atom _) :: fs => .opened (.atom (some name)) :: fs
  | f :: fs => f :: fillName name fs

/-- Names the innermost open atom, which must not have a name yet. -/
def nameAtom (name : String) : Build Unit :=
  fun b =>
    match openName? b.frames with
    | none => fail "symbol" .stackUnderflow b
    | some (some _) => fail "symbol" (.arity "one predicate name" 2) b
    | some none => .ok () { b with frames := fillName name.toLower b.frames }

/-- Gives a type to the terms on top that have none. There must be such a term. -/
def annotate (ty : Ty) : Build Unit :=
  fun b =>
    match b.frames.takeWhile Frame.isUntyped with
    | [] => fail "apply_type" .stackUnderflow b
    | run => .ok () { b with
        frames := run.map (Frame.withType ty) ++ b.frames.dropWhile Frame.isUntyped }

/-! ### Ending a construct -/

/-- The innermost opening, the frames above it, and the frames below it. -/
def innermost? (frames : List Frame) : Option (List Frame × Opening × List Frame) :=
  match frames.dropWhile (!·.isOpen) with
  | .opened o :: below => some (frames.takeWhile (!·.isOpen), o, below)
  | _ => none

/-- Ends a construct: its opening and the frames above it are replaced by what they make
up. The innermost opening must be that of the construct, and an atom must have its name;
otherwise nothing changes. If the frames do not fit together, they are removed together with
the opening. -/
def finish (s : Shape) : Build Unit :=
  fun b =>
    match innermost? b.frames with
    | none => fail s.endLabel .stackUnderflow b
    | some (above, o, below) =>
      if o.shape ≠ s then fail s.endLabel (.unbalanced o.shape.openLabel) b
      else
        match o.assemble b.defaultType above.reverse with
        | .ok f => .ok () { b with frames := f :: below }
        | .error .nameless => fail s.endLabel .nameless b
        | .error kind => .error ⟨kind, s.endLabel, b.depth⟩ { b with frames := below }

/-! ### Taking finished values -/

/-- Takes the top frame, which must be of the kind that `view` looks for. -/
def take {α : Type} (operation expected : String) (view : Frame → Option α) : Build α :=
  fun b =>
    match b.frames with
    | [] => fail operation .stackUnderflow b
    | f :: fs =>
      match view f with
      | none => fail operation (.mismatch expected f.label) b
      | some a => .ok a { b with frames := fs }

/-- Takes the frames on top that are of the kind `view` looks for, in the order in which
they were put there. -/
def takeAll {α : Type} (view : Frame → Option α) : Build (List α) :=
  fun b =>
    .ok ((b.frames.takeWhile fun f => (view f).isSome).reverse.filterMap view)
      { b with frames := b.frames.dropWhile fun f => (view f).isSome }

/-- Takes a type. -/
def takeType : Build Ty :=
  take "take_type" "type" Frame.ty?

/-- Takes all types on top. -/
def takeTypes : Build (List Ty) :=
  takeAll Frame.ty?

/-- Takes a constant. -/
def takeConstant : Build Constant := do
  let c ← take "take_constant" "constant" Frame.const?
  return c.withDefault (← get).defaultType

/-- Takes all constants on top. -/
def takeConstants : Build (List Constant) := do
  let cs ← takeAll Frame.const?
  return cs.map (Constant.withDefault (← get).defaultType)

/-- Takes all variables on top. -/
def takeVariables : Build (List Variable) := do
  let vs ← takeAll Frame.var?
  return vs.map (Variable.withDefault (← get).defaultType)

/-- Takes an atom as the declaration of a predicate. -/
def takePredicate : Build Atom := do
  let a ← take "take_predicate" "predicate" Frame.atom?
  return a.withVariableDefault (← get).defaultType

/-- Takes a formula; there is none if the stack is empty. -/
def takeFormula? : Build (Option Formula) := do
  if (← get).isEmpty then return none
  else return some (← take "take_optional_formula" "formula" Frame.formula?)

/-! ### Events -/

/-- What an event does to a builder. Leaving a typed list takes its type and gives it to the
names in the list; a part of the description does nothing. -/
def onEvent : Event → Build Unit
  | .name .type name => pushPrimitive name
  | .name .variable name => pushVariable name
  | .name .constant name => pushConstant name
  | .name .predicate name => nameAtom name
  | .enter (.shape s) => begin s
  | .leave (.shape s) => finish s
  | .leave .typedList => do annotate (← takeType)
  | .enter .typedList | .enter (.part _) | .leave (.part _) => pure ()

end Builder

end PlanLang
