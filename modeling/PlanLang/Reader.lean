import PlanLang.Event
import PlanLang.SyntaxError

/-!
# Readers

A reader moves a cursor over tokens and reports what it meets, step by step. A step is an
event of the description, or the note that a construct needs a requirement. A reader that
meets a token it cannot go past stops with an error, and what it has reported until then
remains.
-/

namespace PlanLang

/-- The tokens that remain, and the position of the token that was read last. -/
structure Cursor where
  rest : List Token
  last : Position
deriving DecidableEq, Repr

/-- The cursor in front of the first token. -/
def Cursor.start (tokens : List Token) : Cursor :=
  ⟨tokens, .start⟩

/-- What a reader reports. -/
inductive Step where
  | event (e : Event)
  /-- The construct called `what` needs a requirement. -/
  | need (r : Requirement) (what : String)
deriving DecidableEq, Repr

/-- A reader of an `α` reports steps, each at a position, and ends with a value and a cursor
or with an error. -/
def Reader (α : Type) : Type :=
  Cursor → List (Position × Step) × Except SyntaxError (α × Cursor)

namespace Reader

variable {α β σ : Type}

/-- The reader that reads nothing and reports nothing. -/
protected def pure (a : α) : Reader α :=
  fun c => ([], .ok (a, c))

/-- One reader after another; the second continues the report of the first. -/
protected def bind (r : Reader α) (f : α → Reader β) : Reader β :=
  fun c =>
    match r c with
    | (steps, .error e) => (steps, .error e)
    | (steps, .ok (a, c')) => (steps ++ (f a c').1, (f a c').2)

instance : Monad Reader where
  pure := Reader.pure
  bind := Reader.bind

theorem pure_apply (a : α) (c : Cursor) :
  (pure a : Reader α) c = ([], .ok (a, c))
  := rfl

theorem bind_apply (r : Reader α) (f : α → Reader β) (c : Cursor) :
  (r >>= f) c =
    match r c with
    | (steps, .error e) => (steps, .error e)
    | (steps, .ok (a, c')) => (steps ++ (f a c').1, (f a c').2)
  := rfl

/-- The reader that stops with an error. -/
def stop (e : SyntaxError) : Reader α :=
  fun _ => ([], .error e)

/-! ### Reporting -/

/-- Reports a step at the position of the token that was read last. -/
def report (s : Step) : Reader Unit :=
  fun c => ([(c.last, s)], .ok ((), c))

/-- Notes that a construct needs a requirement. -/
def need (r : Requirement) (what : String) : Reader Unit :=
  report (.need r what)

/-- Reports the name that a token stands for. -/
def named (r : Role) (t : Token) : Reader Unit :=
  report (.event (.name r t.name))

/-- Reports the names that tokens stand for, in order. -/
def allNamed (r : Role) : List Token → Reader Unit
  | [] => pure ()
  | t :: ts => do
    named r t
    allNamed r ts

/-- Reports that a construct is entered before a reader and left after it. -/
def within (c : Construct) (r : Reader Unit) : Reader Unit := do
  report (.event (.enter c))
  r
  report (.event (.leave c))

/-! ### Reading tokens -/

/-- Reads the next token if it satisfies `p`. -/
def accept (p : Token → Bool) : Reader (Option Token) :=
  fun c =>
    match c.rest with
    | [] => ([], .ok (none, c))
    | t :: ts => ([], .ok (if p t then (some t, ⟨ts, t.position⟩) else (none, c)))

/-- Whether the next token satisfies `p`; if so, it is read. -/
def found (p : Token → Bool) : Reader Bool := do
  return (← accept p).isSome

/-- Reads the next token, which must satisfy `p`; `options` are the words for what does. -/
def expect (p : Token → Bool) (options : List String) : Reader Token :=
  fun c =>
    match c.rest with
    | [] => ([], .error ⟨c.last, .expected none options⟩)
    | t :: ts =>
      if p t then ([], .ok (t, ⟨ts, t.position⟩))
      else ([], .error ⟨t.position, .expected (some t.text) options⟩)

/-- Reads the next token like `expect`, but an error points at the token before. -/
def expectAfter (p : Token → Bool) (options : List String) : Reader Token :=
  fun c =>
    match c.rest with
    | [] => ([], .error ⟨c.last, .expected none options⟩)
    | t :: ts =>
      if p t then ([], .ok (t, ⟨ts, t.position⟩))
      else ([], .error ⟨c.last, .expected (some t.text) options⟩)

/-- Reads a token of a given kind. -/
def expectKind (kind : TokenKind) : Reader Token :=
  expect (·.kind = kind) [kind.label]

/-- Reads a given name. -/
def expectName (word : String) : Reader Token :=
  expect (·.isName word) [word]

/-- Reads an opening parenthesis. -/
def opening : Reader Unit := do
  let _ ← expectKind .opening

/-- Reads a closing parenthesis. -/
def closing : Reader Unit := do
  let _ ← expectKind .closing

/-- Reads all tokens of a given kind up to the first of another kind. -/
def run (kind : TokenKind) : Reader (List Token) :=
  fun c =>
    let ts := c.rest.takeWhile (·.kind = kind)
    ([], .ok (ts,
      ⟨c.rest.dropWhile (·.kind = kind), (ts.getLast?.map Token.position).getD c.last⟩))

/-- Reads a pair of parentheses with nothing in between, if there is one. -/
def acceptEmptyList : Reader Bool :=
  fun c =>
    match c.rest with
    | s :: t :: ts =>
      if s.kind = .opening && t.kind = .closing then ([], .ok (true, ⟨ts, t.position⟩))
      else ([], .ok (false, c))
    | _ => ([], .ok (false, c))

/-- Stops if the next token is one of the names `words`, which stand for constructs that are
not covered. -/
def refuse (words : List String) : Reader Unit :=
  fun c =>
    match c.rest with
    | [] => ([], .ok ((), c))
    | t :: _ =>
      match words.find? t.isName with
      | some word => ([], .error ⟨t.position, .unsupported word⟩)
      | none => ([], .ok ((), c))

/-- Stops if any token remains. -/
def noMore : Reader Unit :=
  fun c =>
    match c.rest with
    | [] => ([], .ok ((), c))
    | t :: _ => ([], .error ⟨t.position, .extraInput t.text⟩)

/-- The cursor after the closing parenthesis that ends what `depth + 1` opening ones began,
or after all tokens if there is none. -/
def pastClosing (depth : Nat) (last : Position) : List Token → Cursor
  | [] => ⟨[], last⟩
  | t :: ts =>
    match t.kind, depth with
    | .closing, 0 => ⟨ts, t.position⟩
    | .closing, depth + 1 => pastClosing depth t.position ts
    | .opening, depth => pastClosing (depth + 1) t.position ts
    | _, depth => pastClosing depth t.position ts

/-- Reads the contents of a list and the parenthesis that closes it, whatever they are, and
gives the tokens from the contents on. -/
def skipContents : Reader (List Token) :=
  fun c => ([], .ok (c.rest, pastClosing 0 c.last c.rest))

/-! ### Repetition and nesting -/

/-- Repeats `step` until a closing parenthesis is read in its place, at most `n` times. -/
def untilClosingWithin (step : σ → Reader σ) : Nat → σ → Reader σ
  | 0, s => step s
  | n + 1, s => do
    if ← found (·.kind = .closing) then
      return s
    else
      untilClosingWithin step n (← step s)

/-- Repeats `step`, which must read a token each time, until a closing parenthesis is read in
its place. There cannot be more repetitions than there are tokens. -/
def untilClosing (step : σ → Reader σ) (s : σ) : Reader σ :=
  fun c => untilClosingWithin step c.rest.length s c

/-- Repeats a reader that has no value until a closing parenthesis is read in its place. -/
def repeated (r : Reader Unit) : Reader Unit :=
  untilClosing (fun _ => r) ()

/-- Stops as at the end of the source, where an opening parenthesis should be. -/
def endedBeforeList : Reader Unit :=
  fun c => ([], .error ⟨c.last, .expected none [TokenKind.opening.label]⟩)

/-- Reads a list in parentheses that may have lists of the same form inside, down to the
depth `n`. What follows the opening parenthesis is read by `contents`, which is given the
reader of the lists inside. No token is left at the depth `0`. -/
def nestedWithin (contents : Reader Unit → Reader Unit) : Nat → Reader Unit
  | 0 => endedBeforeList
  | n + 1 => do
    opening
    contents (nestedWithin contents n)

/-- Reads a list in parentheses that may have lists of the same form inside, where `contents`
reads what follows the opening parenthesis. The list cannot be deeper than there are
tokens. -/
def nested (contents : Reader Unit → Reader Unit) : Reader Unit :=
  fun c => nestedWithin contents c.rest.length c

end Reader

end PlanLang
