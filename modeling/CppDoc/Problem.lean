import CppDoc.Model

/-!
# Problems in the documentation

Every complaint about a documented project, as a cause with the data it is about.  `Problem.message`
is the one place that words them.
-/

namespace CppDoc

/-- What can be wrong with declarations and their documentation. -/
inductive Problem where
  | nonPublicInheritance (className : String)
  | unreadableParent (className : String)
  | multipleInheritance (className : String)
  | classConflict (className path : String) (line : Nat)
  | unreadableEnum (className enumName : String)
  | unreadableEnumerator
  | unclosedEnum (className enumName : String)
  | unknownParent (className parentName : String)
  | undocumentedFile
  | emptyComment
  | unreadableFunction
  | unnamedChapter
  | unnamedClass
  | missingHeader
  | headerNotIncluded (header : String)
  | headerNotFound (path className : String)
  | noMembersFound (className header : String)
  | alsoMentioned (name path : String) (line : Nat)
  | classWithoutMembers (className : String)
  | directiveNegated (directive : String)
  | directiveHanging
  | argumentOutsideFunction
  | introductionOutsideChapter
  | overloadRepeated
  | overloadOutsideFunction
  | overloadNotFirst
  | unknownDirective (directive : String)
  | unknownClass (name : String)
  | unknownArgument (name : String)
  | noLinkTarget (name className : String)
  | undocumentedArgument (name : String)
  | chapterWithoutIntroduction
  | undocumentedClass (name : String)
  | undocumentedFunction (name parameters : String)
  | other (message : String)
  deriving DecidableEq, Repr, Inhabited

/-- The wording of a problem. -/
def Problem.message : Problem → String
  | .nonPublicInheritance c => "Non-public inheritance for class " ++ c
  | .unreadableParent c => "Cannot parse superclass name for class " ++ c
  | .multipleInheritance c => "Skipping multiple inheritance on class " ++ c
  | .classConflict c path line =>
    "Class " ++ c ++ " conflicts with " ++ c ++ " at " ++ path ++ ":" ++ toString line
  | .unreadableEnum c e => "Cannot parse enum " ++ c ++ "::" ++ e
  | .unreadableEnumerator => "Could not parse enum value"
  | .unclosedEnum c e => "Enum definition for " ++ c ++ "::" ++ e ++ " does not end with '\x7d'"
  | .unknownParent c parent => "Class " ++ c ++ " inherits undocumented class " ++ parent
  | .undocumentedFile => "File contains no documentation"
  | .emptyComment => "Comment contains no documentation"
  | .unreadableFunction => "Unable to parse function name"
  | .unnamedChapter => "\\chapter must be followed by name"
  | .unnamedClass => "\\class must be followed by a class name"
  | .missingHeader => "Missing header file name"
  | .headerNotIncluded header => "File does not include " ++ header
  | .headerNotFound path c => "Cannot find header file " ++ path ++ " (for class " ++ c ++ ")"
  | .noMembersFound c header => "Cannot find any " ++ c ++ " members in " ++ header
  | .alsoMentioned name path line =>
    name ++ " also mentioned at " ++ path ++ " line " ++ toString line
  | .classWithoutMembers c => "Class " ++ c ++ " has no member functions"
  | .directiveNegated d => "Directive " ++ d ++ " negates preceding directive"
  | .directiveHanging => "Directive hanging at end of paragraph"
  | .argumentOutsideFunction => "\\a is only defined for function documentation"
  | .introductionOutsideChapter => "\\introduces is only valid after \\chapter"
  | .overloadRepeated => "\\overload repeated"
  | .overloadOutsideFunction => "\\overload is only meaningful for functions"
  | .overloadNotFirst => "\\overload must be the first directive"
  | .unknownDirective d => "Unknown directive: " ++ d
  | .unknownClass name => "Cannot find class: " ++ name
  | .unknownArgument name => "No such argument: " ++ name
  | .noLinkTarget name c => "No link target for " ++ name ++ "() (in class " ++ c ++ ")"
  | .undocumentedArgument name => "Undocumented argument: " ++ name
  | .chapterWithoutIntroduction => "\\chapter must contain \\introduces"
  | .undocumentedClass name => "Undocumented class: " ++ name
  | .undocumentedFunction name parameters => "Undocumented function: " ++ name ++ parameters
  | .other message => message

/-- A problem at a line of a file. -/
structure Diagnostic where
  site : Location
  problem : Problem
  deriving DecidableEq, Repr, Inhabited

end CppDoc
