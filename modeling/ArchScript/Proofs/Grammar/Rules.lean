/-
  The grammar of programs.

  A rule relates the tokens of a phrase to its syntax tree. Rules know no order of trial, no
  look-ahead and no commitment to a form: `ProgramRule ts p` says that the tokens `ts` can be
  derived as the program `p`, in whatever way. The trees of the grammar carry no spans;
  `Program.bare` takes the spans out of a tree that was read.

  Statements of a program end in a semicolon each. In braces (`Block`) a semicolon after an
  item may be left out.
-/
import ArchScript.Program
import ArchScript.Token

namespace ArchScript

/-- The tokens themselves, without their spans. -/
def values (ts : Tokens) : List Token := ts.map Spanned.value

@[simp] theorem values_nil : values [] = [] := rfl

@[simp] theorem values_cons (t : Spanned Token) (ts : Tokens) :
    values (t :: ts) = t.value :: values ts := rfl

/-! ## Trees without spans -/

/-- The value without its span. -/
def Spanned.bare {α : Type} (x : Spanned α) : Spanned α := unplaced x.value

@[simp] theorem Spanned.bare_mk {α : Type} (x : α) (span : Span) :
    Spanned.bare ⟨x, span⟩ = unplaced x := rfl

def PropertyDecl.bare (d : PropertyDecl) : PropertyDecl := ⟨d.key.bare, d.value.bare⟩

def StepDecl.bare : StepDecl → StepDecl
  | request kind source target message =>
    request kind source.bare target.bare (message.map Spanned.bare)
  | response requester responder message =>
    response requester.bare responder.bare (message.map Spanned.bare)
  | transfer kind left right message => transfer kind left.bare right.bare message.bare

def ContainerHead.bare (h : ContainerHead) : ContainerHead := ⟨h.name.bare, h.id.bare⟩

mutual

/-- The statement without its spans, and its body without them. -/
def Statement.bare : Statement → Statement
  | .actor d => .actor ⟨d.kind.bare, d.caption.bare, d.id.bare, d.annotations.map Spanned.bare⟩
  | .note d => .note ⟨d.target.bare, d.text.bare⟩
  | .assignment d => .assignment ⟨d.target.bare, d.annotations.map Spanned.bare⟩
  | .call d => .call ⟨d.kind, d.source.bare, d.target.bare, d.text.map Spanned.bare⟩
  | .flow d => .flow ⟨d.kind, d.left.bare, d.right.bare⟩
  | Statement.annotation d =>
    Statement.annotation ⟨d.id.bare, d.properties.map PropertyDecl.bare⟩
  | .container head body => .container head.bare (bareAll body)
  | .scenario d => .scenario ⟨d.name.bare, d.steps.map fun x => unplaced x.value.bare⟩

def bareAll : List (Spanned Statement) → List (Spanned Statement)
  | [] => []
  | ⟨x, _⟩ :: xs => unplaced x.bare :: bareAll xs

end

theorem bareAll_eq_map (xs : List (Spanned Statement)) :
    bareAll xs = (xs.map fun x => x.value.bare).map unplaced := by
  induction xs with
  | nil => rfl
  | cons x xs ih => rw [bareAll, ih, List.map_cons, List.map_cons]

/-- The program without its spans. -/
def Program.bare (p : Program) : Program := bareAll p

/-! ## Clauses -/

namespace Grammar

/-- The word that begins the declaration of an actor. -/
def actorWord : ActorKind → Keyword
  | .agent => .agent
  | .user => .user
  | .store => .store

/-- The arrow of a channel: `->` or `-\`. -/
def channelArrow : ChannelKind → Sign
  | .requestResponse => .arrow
  | .async => .asyncArrow

/-- The arrow of a data flow: `-->` or `<--`. -/
def flowArrow : FlowKind → Sign
  | .write => .writeArrow
  | .read => .readArrow

/-- `@A, @B`, one or more. -/
inductive References : List Token → List (Spanned Ident) → Prop
  | last (x : Ident) : References [.sign .at, .identifier x] [unplaced x]
  | more (x : Ident) {ts : List Token} {refs : List (Spanned Ident)} (h : References ts refs) :
    References (.sign .at :: .identifier x :: .sign .comma :: ts) (unplaced x :: refs)

/-- `is @A, @B`. -/
inductive Clause : List Token → List (Spanned Ident) → Prop
  | is {ts : List Token} {refs : List (Spanned Ident)} (h : References ts refs) :
    Clause (.keyword .is :: ts) refs

/-- A clause, or nothing. -/
inductive OptionalClause : List Token → List (Spanned Ident) → Prop
  | absent : OptionalClause [] []
  | present {ts : List Token} {refs : List (Spanned Ident)} (h : Clause ts refs) :
    OptionalClause ts refs

/-- A text literal, or nothing. -/
inductive OptionalText : List Token → Option (Spanned String) → Prop
  | absent : OptionalText [] none
  | present (text : String) : OptionalText [.text text] (some (unplaced text))

/-- Items in braces, each with a semicolon or without. -/
inductive Block {α : Type} (Item : List Token → α → Prop) : List Token → List α → Prop
  | nil : Block Item [] []
  | cons {ts us : List Token} {x : α} {xs : List α} (hx : Item ts x) (hxs : Block Item us xs) :
    Block Item (ts ++ us) (x :: xs)
  | consSemicolon {ts us : List Token} {x : α} {xs : List α} (hx : Item ts x)
    (hxs : Block Item us xs) : Block Item (ts ++ .sign .semicolon :: us) (x :: xs)

/-! ## Statements -/

/-- `color: 'value'` or `prototype: 'value'`. -/
inductive PropertyRule : List Token → PropertyDecl → Prop
  | property (key : PropertyKey) (value : String) :
    PropertyRule [.identifier key.text, .sign .colon, .text value]
      ⟨unplaced key, unplaced value⟩

/-- The steps of a scenario. -/
inductive StepRule : List Token → StepDecl → Prop
  | request (kind : ChannelKind) (a b : Ident) {ts : List Token}
    {message : Option (Spanned String)} (h : OptionalText ts message) :
    StepRule (.identifier a :: .sign .dash :: .sign .leftParen ::
        (ts ++ [.sign .rightParen, .sign (channelArrow kind), .identifier b]))
      (.request kind (unplaced a) (unplaced b) message)
  | response (a b : Ident) {ts : List Token} {message : Option (Spanned String)}
    (h : OptionalText ts message) :
    StepRule (.identifier a :: .sign .doubleDash :: .sign .leftParen ::
        (ts ++ [.sign .rightParen, .sign .responseArrow, .identifier b]))
      (.response (unplaced a) (unplaced b) message)
  | write (a b : Ident) (message : String) :
    StepRule [.identifier a, .sign .dash, .text message, .sign .arrow, .identifier b]
      (.transfer .write (unplaced a) (unplaced b) (unplaced message))
  | read (a b : Ident) (message : String) :
    StepRule [.identifier a, .sign .leftArrow, .text message, .sign .dash, .identifier b]
      (.transfer .read (unplaced a) (unplaced b) (unplaced message))

/-- The statements. -/
inductive StatementRule : List Token → Statement → Prop
  | actor (kind : ActorKind) (caption : String) (x : Ident) {ts : List Token}
    {refs : List (Spanned Ident)} (h : OptionalClause ts refs) :
    StatementRule
      (.keyword (actorWord kind) :: .text caption :: .keyword .as :: .identifier x :: ts)
      (.actor ⟨unplaced kind, unplaced caption, unplaced x, refs⟩)
  | note (x : Ident) (text : String) :
    StatementRule [.keyword .note, .keyword .for, .identifier x, .sign .colon, .text text]
      (.note ⟨unplaced x, unplaced text⟩)
  | assignment (x : Ident) {ts : List Token} {refs : List (Spanned Ident)} (h : Clause ts refs) :
    StatementRule (.identifier x :: ts) (.assignment ⟨unplaced x, refs⟩)
  | call (kind : ChannelKind) (a b : Ident) {ts : List Token} {text : Option (Spanned String)}
    (h : OptionalText ts text) :
    StatementRule (.identifier a :: .sign .dash :: .sign .leftParen ::
        (ts ++ [.sign .rightParen, .sign (channelArrow kind), .identifier b]))
      (.call ⟨kind, unplaced a, unplaced b, text⟩)
  | flow (kind : FlowKind) (a b : Ident) :
    StatementRule [.identifier a, .sign (flowArrow kind), .identifier b]
      (.flow ⟨kind, unplaced a, unplaced b⟩)
  | annotation (x : Ident) {ts : List Token} {properties : List PropertyDecl}
    (h : Block PropertyRule ts properties) :
    StatementRule (.sign .at :: .identifier x :: .sign .leftBrace :: (ts ++ [.sign .rightBrace]))
      (Statement.annotation ⟨unplaced x, properties⟩)
  | container (name : String) (x : Ident) {ts : List Token} {body : List Statement}
    (h : Block StatementRule ts body) :
    StatementRule (.keyword .container :: .text name :: .keyword .as :: .identifier x ::
        .sign .leftBrace :: (ts ++ [.sign .rightBrace]))
      (.container ⟨unplaced name, unplaced x⟩ (body.map unplaced))
  | scenario (name : String) {ts : List Token} {steps : List StepDecl}
    (h : Block StepRule ts steps) :
    StatementRule (.text name :: .sign .leftBrace :: (ts ++ [.sign .rightBrace]))
      (.scenario ⟨unplaced name, steps.map unplaced⟩)

/-- Statements, each with its semicolon. -/
inductive ProgramRule : List Token → Program → Prop
  | nil : ProgramRule [] []
  | cons {ts us : List Token} {x : Statement} {p : Program} (hx : StatementRule ts x)
    (hp : ProgramRule us p) : ProgramRule (ts ++ .sign .semicolon :: us) (unplaced x :: p)

end Grammar

end ArchScript
