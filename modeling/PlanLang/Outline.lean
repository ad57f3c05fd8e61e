import PlanLang.Section

/-!
# Outlines

The outline of a description is found first: its declared requirements, and where the
contents of each section begin. Sections come in a fixed order and most of them only once.
Their contents are passed over, parenthesis by parenthesis, and read later one by one.
-/

namespace PlanLang

/-- What the keywords at the beginning of sections announce. -/
inductive Heading where
  | requirements
  | contents (k : SectionKind)
deriving DecidableEq, Repr

namespace Heading

/-- The keyword of a heading. -/
def keyword : Heading → String
  | requirements => ":requirements"
  | contents .types => ":types"
  | contents .constants => ":constants"
  | contents .predicates => ":predicates"
  | contents .action => ":action"
  | contents .objects => ":objects"
  | contents .init => ":init"
  | contents .goal => ":goal"

/-- Only actions may come several times. -/
def repeats (h : Heading) : Bool :=
  h = contents .action

/-- The headings that may come after a heading, of those that may come in its place: the
later ones, and the heading itself if it repeats. -/
def following (h : Heading) (allowed : List Heading) : List Heading :=
  match allowed.dropWhile (· ≠ h) with
  | [] => []
  | g :: gs => if g.repeats then g :: gs else gs

end Heading

/-- The headings of one sort of description, in order, and the keywords of sections that are
not covered. -/
structure Layout where
  headings : List Heading
  unsupported : List String
deriving DecidableEq, Repr

/-- The requirements, if any are declared, and the sections in order, each with the tokens
from its contents on. -/
structure Outline where
  requirements : Option Requirements
  sections : List (SectionKind × List Token)
deriving DecidableEq, Repr

namespace Outline

/-- The outline without requirements and sections. -/
def empty : Outline :=
  ⟨none, []⟩

/-- The requirements, which are empty if none are declared. -/
def available (o : Outline) : Requirements :=
  o.requirements.getD .empty

/-- Stops if types are declared and the requirement `:typing` is not. -/
def checkTyping (o : Outline) (k : SectionKind) : Reader Unit :=
  fun c =>
    if k = .types && !o.available.has .typing then
      ([], .error ⟨c.last, .missingRequirement .typing ":types"⟩)
    else ([], .ok ((), c))

/-- The keyword of one more requirement. -/
def requirement (s : Requirements) : Reader Requirements := do
  let t ← Reader.expectKind .keyword
  match Requirement.ofKeyword? t.text with
  | some r => return s.declare r
  | none => Reader.stop ⟨t.position, .expected (some t.text) ["requirement"]⟩

/-- The outline after what stands below a heading. -/
def enter (o : Outline) : Heading → Reader Outline
  | .requirements => do
    let s ← Reader.untilClosing requirement .empty
    return { o with requirements := some s }
  | .contents k => do
    checkTyping o k
    let tokens ← Reader.skipContents
    return { o with sections := o.sections ++ [(k, tokens)] }

/-- One of the allowed headings, with its opening parenthesis. -/
def heading (unsupported : List String) (allowed : List Heading) : Reader Heading := do
  let _ ← Reader.expectAfter (·.kind = .opening) ["(", ")"]
  let t ← Reader.expect (·.kind = .keyword) (allowed.map Heading.keyword)
  match allowed.find? fun h => t.isKeyword h.keyword with
  | some h => return h
  | none =>
    match unsupported.find? t.isKeyword with
    | some word => Reader.stop ⟨t.position, .unsupported word⟩
    | none => Reader.stop ⟨t.position, .expected (some t.text) (allowed.map Heading.keyword)⟩

/-- One more section: the headings that may come after it, and the outline with it. -/
def nextSection (unsupported : List String) :
    List Heading × Outline → Reader (List Heading × Outline)
  | (allowed, o) => do
    let h ← heading unsupported allowed
    let o ← o.enter h
    return (h.following allowed, o)

/-- The beginning of a description of the sort `word`, up to its name. -/
def title (word : String) : Reader Token := do
  Reader.opening
  let _ ← Reader.expectName "define"
  Reader.opening
  let _ ← Reader.expectName word
  let name ← Reader.expectKind .name
  Reader.closing
  return name

/-- All sections up to the parenthesis that closes the description, after which nothing may
follow. -/
def body (l : Layout) : Reader Outline := do
  let (_, o) ← Reader.untilClosing (nextSection l.unsupported) (l.headings, .empty)
  Reader.noMore
  return o

/-- The first tokens are those of a description of the sort `word`. -/
def isTitled (word : String) : List Token → Bool
  | a :: b :: c :: d :: _ =>
    a.kind = .opening && b.isName "define" && c.kind = .opening && d.isName word
  | _ => false

/-- The values of all results, or all errors if there are any. -/
def gather {ε α : Type} : List (Except ε α) → Except (List ε) (List α)
  | [] => .ok []
  | .ok a :: rs => (gather rs).map (a :: ·)
  | .error e :: rs =>
    match gather rs with
    | .ok _ => .error [e]
    | .error es => .error (e :: es)

/-- What the sections declare, or the errors of all sections that are not well formed. -/
def read (o : Outline) (gate : Gate) (defaultType : Option Ty) :
    Except (List SyntaxError) (List Section) :=
  gather <| o.sections.map fun (k, tokens) => (k.read gate defaultType tokens).map Prod.fst

end Outline

end PlanLang
