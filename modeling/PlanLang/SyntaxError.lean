import PlanLang.Builder.Error
import PlanLang.Requirement
import PlanLang.Token

/-!
# Syntax errors

A source that is not a description is refused with errors. An error says what is wrong and
at which position.
-/

namespace PlanLang

namespace SyntaxError

/-- What is wrong. -/
inductive Kind where
  /-- Some text, or the end of the source, stands where one of the options should. -/
  | expected (found : Option String) (options : List String)
  /-- Something follows the description. -/
  | extraInput (text : String)
  /-- A construct is used without the requirement it needs. -/
  | missingRequirement (requirement : Requirement) (what : String)
  /-- A construct of the language is not covered. -/
  | unsupported (word : String)
  /-- What has been read does not make up a construct. -/
  | construct (error : BuildError)
deriving DecidableEq, Repr

/-- The words for what was found. -/
def foundText : Option String → String
  | some text => text
  | none => "end of input"

/-- The words for what was expected in place of something else. -/
def expectedText (found : String) : List String → String
  | [] => "Unexpected " ++ found
  | [option] => "Expecting " ++ option ++ ", found " ++ found
  | option :: options =>
    "Expecting either " ++ ", ".intercalate ((option :: options).dropLast) ++ ", or " ++
      options.getLastD option ++ ", found " ++ found

/-- The text that says what is wrong. -/
def Kind.text : Kind → String
  | expected found options => expectedText (foundText found) options
  | extraInput text => "Extra input detected: " ++ text
  | missingRequirement requirement what =>
    what ++ " requires " ++ requirement.keyword ++ " declaration in :requirements section"
  | unsupported word => word ++ " is not supported"
  | construct error => "malformed construct: " ++ error.message

end SyntaxError

/-- An error with its position. -/
structure SyntaxError where
  position : Position
  kind : SyntaxError.Kind
deriving DecidableEq, Repr

/-- The text of an error. -/
def SyntaxError.message (e : SyntaxError) : String :=
  toString e.position.line ++ ":" ++ toString e.position.column ++ ": error: " ++ e.kind.text

end PlanLang
