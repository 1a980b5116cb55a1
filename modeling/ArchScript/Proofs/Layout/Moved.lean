/-
  Moved spans.

  `moved f` puts every span of a tree, a fault or a violation where `f` says, and leaves the
  rest as it is. Two diagnostics say the same if they differ at most in where their labels point
  (`Diagnostic.SaysSame`); the diagnostic of a fault or a violation says the same when it is moved
  (`SyntaxFault.saysSame_moved`, `Violation.saysSame_moved`).
-/
import ArchScript.Program
import ArchScript.Program.Fault
import ArchScript.Violation

namespace ArchScript

variable (f : Span → Span)

/-- The value at its new place. -/
def Spanned.moved {α : Type} (x : Spanned α) : Spanned α := ⟨x.value, f x.span⟩

/-! ## Trees -/

def ActorDecl.moved (d : ActorDecl) : ActorDecl :=
  ⟨d.kind.moved f, d.caption.moved f, d.id.moved f, d.annotations.map (Spanned.moved f)⟩

def NoteDecl.moved (d : NoteDecl) : NoteDecl := ⟨d.target.moved f, d.text.moved f⟩

def Assignment.moved (d : Assignment) : Assignment :=
  ⟨d.target.moved f, d.annotations.map (Spanned.moved f)⟩

def Call.moved (d : Call) : Call :=
  ⟨d.kind, d.source.moved f, d.target.moved f, d.text.map (Spanned.moved f)⟩

def Flow.moved (d : ArchScript.Flow) : ArchScript.Flow := ⟨d.kind, d.left.moved f, d.right.moved f⟩

def PropertyDecl.moved (d : PropertyDecl) : PropertyDecl := ⟨d.key.moved f, d.value.moved f⟩

def AnnotationDef.moved (d : AnnotationDef) : AnnotationDef :=
  ⟨d.id.moved f, d.properties.map (PropertyDecl.moved f)⟩

def StepDecl.moved : StepDecl → StepDecl
  | request kind source target message =>
    request kind (source.moved f) (target.moved f) (message.map (Spanned.moved f))
  | response requester responder message =>
    response (requester.moved f) (responder.moved f) (message.map (Spanned.moved f))
  | transfer kind left right message =>
    transfer kind (left.moved f) (right.moved f) (message.moved f)

/-- A step at its new place, with its parts at theirs. -/
def movedStep (x : Spanned StepDecl) : Spanned StepDecl := ⟨x.value.moved f, f x.span⟩

def ScenarioDef.moved (d : ScenarioDef) : ScenarioDef :=
  ⟨d.name.moved f, d.steps.map (movedStep f)⟩

def ContainerHead.moved (h : ContainerHead) : ContainerHead := ⟨h.name.moved f, h.id.moved f⟩

mutual

/-- The statement with the spans of its parts moved, those of its body among them. -/
def Statement.moved : Statement → Statement
  | .actor d => .actor (d.moved f)
  | .note d => .note (d.moved f)
  | .assignment d => .assignment (d.moved f)
  | .call d => .call (d.moved f)
  | .flow d => .flow (d.moved f)
  | Statement.annotation d => Statement.annotation (d.moved f)
  | .container head body => .container (head.moved f) (movedAll body)
  | .scenario d => .scenario (d.moved f)

def movedAll : List (Spanned Statement) → List (Spanned Statement)
  | [] => []
  | ⟨x, span⟩ :: xs => ⟨x.moved, f span⟩ :: movedAll xs

end

/-- A statement at its new place, with its parts at theirs. -/
def movedStatement (x : Spanned Statement) : Spanned Statement := ⟨x.value.moved f, f x.span⟩

theorem movedAll_cons (x : Spanned Statement) (xs : List (Spanned Statement)) :
    movedAll f (x :: xs) = movedStatement f x :: movedAll f xs := rfl

theorem movedAll_eq_map (xs : List (Spanned Statement)) :
    movedAll f xs = xs.map (movedStatement f) := by
  induction xs with
  | nil => rfl
  | cons x xs ih => rw [movedAll_cons, ih, List.map_cons]

/-- The program with every span moved. -/
def Program.moved (p : Program) : Program := movedAll f p

/-! ## What a diagnostic says -/

/-- The two diagnostics differ at most in where their labels point. -/
structure Diagnostic.SaysSame (d d' : Diagnostic) : Prop where
  code : d.code = d'.code
  message : d.message = d'.message
  help : d.help = d'.help
  labels : (d.labels.map fun l => (l.message, l.isPrimary)) =
    d'.labels.map fun l => (l.message, l.isPrimary)

namespace Diagnostic.SaysSame

variable {d d' d'' : Diagnostic}

theorem symm (h : d.SaysSame d') : d'.SaysSame d :=
  ⟨h.code.symm, h.message.symm, h.help.symm, h.labels.symm⟩

theorem trans (h : d.SaysSame d') (h' : d'.SaysSame d'') : d.SaysSame d'' :=
  ⟨h.code.trans h'.code, h.message.trans h'.message, h.help.trans h'.help,
    h.labels.trans h'.labels⟩

end Diagnostic.SaysSame

/-- The fault with its tokens moved. -/
def SyntaxFault.moved (x : SyntaxFault) : SyntaxFault :=
  ⟨x.expected, x.construct.map (Spanned.moved f), x.rest.map (Spanned.moved f)⟩

/-- The violation with its spans moved. -/
def Violation.moved : Violation → Violation
  | undefined ref => undefined (ref.moved f)
  | containerAsActor ref => containerAsActor (ref.moved f)
  | storeAsEnd ref role => storeAsEnd (ref.moved f) role
  | notAStore ref kind role => notAStore (ref.moved f) kind role
  | missingRequest requester responder step => missingRequest requester responder (f step)
  | duplicate what ref first => duplicate what (ref.moved f) (f first)

/-- A fault names what was expected and the token that stands there, in whatever source. -/
theorem SyntaxFault.saysSame_moved (all all' : Tokens) (x : SyntaxFault) :
    (x.diagnostic all).SaysSame ((x.moved f).diagnostic all') := by
  obtain ⟨expected, construct, rest⟩ := x
  cases rest with
  | nil => exact ⟨rfl, rfl, rfl, rfl⟩
  | cons t rest => exact ⟨rfl, rfl, rfl, rfl⟩

theorem Violation.saysSame_moved (w : Violation) :
    w.diagnostic.SaysSame (w.moved f).diagnostic := by
  cases w <;> exact ⟨rfl, rfl, rfl, rfl⟩

end ArchScript
