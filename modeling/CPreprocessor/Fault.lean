import CPreprocessor.Diagnostic
import CPreprocessor.Lexeme.Basic

/-!
# Faults

Everything that can be wrong with a source, by cause. The family and the wording of each cause are
fixed here and nowhere else.
-/

namespace CPreprocessor

/-- What is wrong. -/
inductive Fault where
  /-- A comment, literal or asm block is not closed. -/
  | unclosed (opener : Opener)
  | nameMissing
  | nameNotIdentifier
  /-- The name may not be defined. -/
  | nameReserved (name : String)
  | parametersUnclosed
  /-- Something other than the closing parenthesis stands behind the ellipsis. -/
  | ellipsisNotLast
  | parameterInvalid
  | parameterRepeated (name : String)
  | parameterSeparator
  /-- A body begins or ends with the paste operator. -/
  | pasteAtEdge
  /-- The name `__VA_ARGS__` stands in the body of a macro that is not variadic. -/
  | variadicNameMisplaced
  /-- No parameter stands behind the stringizing operator. -/
  | stringizeOperand
  | commandLineDefinition (definition : String)
  | commandLineUndefinition (name : String)
  | redefinition (name : String) (previous : Position)
  | argumentCount (name : String) (variadic : Bool) (expected given : Nat)
  | invocationUnclosed (name : String)
  | pasteInvalid (left right : String)
  | undefineOperand
  | includeOperand
  /-- The operand of an include, in its quotes or brackets, names no file. -/
  | includeUnresolved (reference : String)
  | includeUnreadable (name reason : String)
  | includeCycle (identity : String)
  | includeTooDeep
  /-- The words of an error directive. -/
  | errorDirective (text : String)
  | unknownDirective (keyword : String)
deriving DecidableEq, Repr

namespace Fault

/-- The family of a fault. -/
def category : Fault → Category
  | unclosed .comment => .unterminatedComment
  | unclosed .string | unclosed .character => .unterminatedLiteral
  | unclosed .asmBlock => .unterminatedAsmBlock
  | nameMissing | nameNotIdentifier | nameReserved _ | parametersUnclosed | ellipsisNotLast
  | parameterInvalid | parameterRepeated _ | parameterSeparator | pasteAtEdge
  | variadicNameMisplaced | stringizeOperand | commandLineDefinition _
  | commandLineUndefinition _ => .invalidDefinition
  | redefinition _ _ => .conflictingDefinition
  | argumentCount _ _ _ _ => .argumentCount
  | invocationUnclosed _ => .unterminatedInvocation
  | pasteInvalid _ _ => .invalidPaste
  | undefineOperand | includeOperand => .malformedDirective
  | includeUnresolved _ => .unresolvedInclude
  | includeUnreadable _ _ => .unreadableInclude
  | includeCycle _ | includeTooDeep => .includeCycle
  | errorDirective _ => .errorDirective
  | unknownDirective _ => .unknownDirective

/-- A fault in words. -/
def message : Fault → String
  | unclosed .comment => "Unterminated block comment"
  | unclosed .string => "Unterminated string literal"
  | unclosed .character => "Unterminated character constant"
  | unclosed .asmBlock => "Unterminated asm block"
  | nameMissing => "Macro name missing"
  | nameNotIdentifier => "Macro name must be an identifier"
  | nameReserved name => "Cannot define builtin macro '" ++ name ++ "'"
  | parametersUnclosed => "Missing ')' in macro parameter list"
  | ellipsisNotLast => "Expected ')' after '...'"
  | parameterInvalid => "Invalid macro parameter"
  | parameterRepeated name => "Duplicate macro parameter '" ++ name ++ "'"
  | parameterSeparator => "Expected ',' or ')' in macro parameter list"
  | pasteAtEdge => "'##' cannot appear at either end of a macro expansion"
  | variadicNameMisplaced => "__VA_ARGS__ can only appear in the expansion of a variadic macro"
  | stringizeOperand => "'#' is not followed by a macro parameter"
  | commandLineDefinition definition => "Invalid macro definition: " ++ definition
  | commandLineUndefinition name => "Invalid macro name in -U: " ++ name
  | redefinition name previous =>
    "Macro '" ++ name ++ "' redefined with a different body (previous definition at " ++
      previous.render ++ ")"
  | argumentCount name variadic expected given =>
    "Macro '" ++ name ++ "' expects " ++ (if variadic then "at least " else "") ++
      toString expected ++ " argument(s), got " ++ toString given
  | invocationUnclosed name => "Unterminated invocation of macro '" ++ name ++ "'"
  | pasteInvalid left right =>
    "Pasting '" ++ left ++ "' and '" ++ right ++ "' does not give a valid token"
  | undefineOperand => "Expected macro name after #undef"
  | includeOperand => "#include expects \"FILENAME\" or <FILENAME>"
  | includeUnresolved reference => "Include not found: " ++ reference
  | includeUnreadable name reason => "Unable to read include: " ++ name ++ ": " ++ reason
  | includeCycle identity => "Circular include of " ++ identity
  | includeTooDeep => "#include nested too deeply"
  | errorDirective text => if text.isEmpty then "#error" else text
  | unknownDirective keyword => "Unknown preprocessor directive: #" ++ keyword

end Fault

/-- A fault at a place, or without one if it is on the command line. -/
structure Issue where
  fault : Fault
  position : Option Position
deriving DecidableEq, Repr

namespace Issue

/-- An issue at a place in a source. -/
def placed (fault : Fault) (position : Position) : Issue := ⟨fault, some position⟩

/-- The report of an issue. -/
def report (issue : Issue) : Report := ⟨issue.fault.category, issue.fault.message, issue.position⟩

end Issue

end CPreprocessor
