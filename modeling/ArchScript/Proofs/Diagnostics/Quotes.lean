/-
  Violations point at what they name.

  A message quotes its names between backquotes (`quotedNames`). The violation of a walk is
  about an identifier of the program or about a response and its ends
  (`Program.elaborate_cites`). In a source an identifier is written where its span says, so
  the span of a violation cuts out what its message quotes (`compile_quotes`).
-/
import ArchScript.Proofs.Diagnostics.Phases
import ArchScript.Proofs.Diagnostics.Places
import ArchScript.Proofs.Lexing.Slice

namespace ArchScript

/-! ## Quoted names -/

/-- The sign that stands before and after a name in a message. -/
def backquote : Char := '\x60'

/-- The names between backquotes in what is left of a message; `inside` are the characters of
a name that has begun, from the last to the first. -/
def quotedFrom : (inside : Option (List Char)) → List Char → List String
  | _, [] => []
  | none, c :: cs => if c = backquote then quotedFrom (some []) cs else quotedFrom none cs
  | some name, c :: cs =>
    if c = backquote then String.ofList name.reverse :: quotedFrom none cs
    else quotedFrom (some (c :: name)) cs

/-- The names that a message quotes, in order. -/
def quotedNames (message : String) : List String := quotedFrom none message.toList

/-- A name is quoted up to its closing backquote. -/
theorem quotedFrom_some {x : List Char} (hx : backquote ∉ x) (name cs : List Char) :
    quotedFrom (some name) (x ++ backquote :: cs) =
      String.ofList (name.reverse ++ x) :: quotedFrom none cs := by
  induction x generalizing name with
  | nil =>
    rw [List.nil_append, quotedFrom, if_pos rfl, List.append_nil]
  | cons c x ih =>
    rw [List.mem_cons, not_or] at hx
    rw [List.cons_append, quotedFrom, if_neg (Ne.symm hx.1), ih hx.2, List.reverse_cons,
      List.append_assoc, List.singleton_append]

/-- The part of a message before a name: its last sign is its only backquote. -/
def OpensName (front : String) : Prop :=
  front.toList.getLast? = some backquote ∧ backquote ∉ front.toList.dropLast

instance (front : String) : Decidable (OpensName front) := inferInstanceAs (Decidable (_ ∧ _))

/-- The part of a message after its last name: its first sign is its only backquote. -/
def ClosesName (back : String) : Prop :=
  back.toList.head? = some backquote ∧ backquote ∉ back.toList.tail

instance (back : String) : Decidable (ClosesName back) := inferInstanceAs (Decidable (_ ∧ _))

/-- Outside names nothing is quoted. -/
theorem quotedFrom_none {u : List Char} (hu : backquote ∉ u) (cs : List Char) :
    quotedFrom none (u ++ cs) = quotedFrom none cs := by
  induction u with
  | nil => rfl
  | cons c u ih =>
    rw [List.mem_cons, not_or] at hu
    rw [List.cons_append, quotedFrom, if_neg (Ne.symm hu.1), ih hu.2]

theorem OpensName.quotedFrom {front : String} (h : OpensName front) (cs : List Char) :
    quotedFrom none (front.toList ++ cs) = quotedFrom (some []) cs := by
  obtain ⟨u, hu⟩ := List.getLast?_eq_some_iff.1 h.1
  have hplain := h.2
  rw [hu, List.dropLast_concat] at hplain
  rw [hu, List.append_assoc, quotedFrom_none hplain]
  rfl

/-- A word is quoted whole. -/
theorem quotedFrom_word {x : Ident} (hx : IsWord x) (cs : List Char) :
    quotedFrom (some []) (x.toList ++ backquote :: cs) = x :: quotedFrom none cs := by
  rw [quotedFrom_some (hx.not_mem (by decide)), List.reverse_nil, List.nil_append,
    String.ofList_toList]

theorem ClosesName.quotedFrom {back : String} (h : ClosesName back) {x : Ident} (hx : IsWord x) :
    quotedFrom (some []) (x.toList ++ back.toList) = [x] := by
  obtain ⟨v, hv⟩ := List.head?_eq_some_iff.1 h.1
  have hplain := h.2
  rw [hv, List.tail_cons] at hplain
  rw [hv, quotedFrom_word hx, ← List.append_nil v, quotedFrom_none hplain]
  rfl

theorem quotedNames_one {front back : String} {x : Ident} (hfront : OpensName front)
    (hback : ClosesName back) (hx : IsWord x) : quotedNames (front ++ x ++ back) = [x] := by
  rw [quotedNames, String.toList_append, String.toList_append, List.append_assoc,
    hfront.quotedFrom, hback.quotedFrom hx]

theorem quotedNames_two {front between back : String} {x y : Ident} (hfront : OpensName front)
    (hbetween : between.toList.head? = some backquote ∧
      OpensName (String.ofList between.toList.tail))
    (hback : ClosesName back) (hx : IsWord x) (hy : IsWord y) :
    quotedNames (front ++ x ++ between ++ y ++ back) = [x, y] := by
  obtain ⟨v, hv⟩ := List.head?_eq_some_iff.1 hbetween.1
  have hopens := hbetween.2
  rw [hv, List.tail_cons] at hopens
  have hnext := hopens.quotedFrom (y.toList ++ back.toList)
  rw [String.toList_ofList] at hnext
  simp only [quotedNames, String.toList_append, List.append_assoc]
  rw [hfront.quotedFrom, hv, List.cons_append, quotedFrom_word hx, hnext, hback.quotedFrom hy]

/-! ## Messages -/

namespace Violation

/-- What a violation is about: identifiers that satisfy `P`, or a response whose ends and span
satisfy `Q`. -/
def Cites (P : Spanned Ident → Prop) (Q : Ident → Ident → Span → Prop) : Violation → Prop
  | undefined ref => P ref
  | containerAsActor ref => P ref
  | storeAsEnd ref _ => P ref
  | notAStore ref _ _ => P ref
  | missingRequest requester responder step => Q requester responder step
  | duplicate _ ref _ => P ref

/-- A message about an identifier quotes it, and the violation is where the identifier is. -/
theorem quotes_one {P : Spanned Ident → Prop} {Q : Ident → Ident → Span → Prop}
    (hP : ∀ ref, P ref → IsWord ref.value) {w : Violation} (h : w.Cites P Q)
    (hw : w.code ≠ .missingRequest) :
    ∃ ref, P ref ∧ w.span = ref.span ∧ quotedNames w.message = [ref.value] := by
  cases w with
  | undefined ref =>
    exact ⟨ref, h, rfl, quotedNames_one (by decide) (by decide) (hP ref h)⟩
  | containerAsActor ref =>
    exact ⟨ref, h, rfl, quotedNames_one (by decide) (by decide) (hP ref h)⟩
  | storeAsEnd ref role =>
    exact ⟨ref, h, rfl, quotedNames_one (by decide) (by decide) (hP ref h)⟩
  | notAStore ref kind role =>
    have hfront : OpensName "invalid endpoint: `" := by decide
    have hback : ClosesName ("` is " ++ article kind ++ " " ++ kind.text ++ ", not a store") := by
      cases kind <;> decide
    have hmessage := quotedNames_one hfront hback (hP ref h)
    simp only [← String.append_assoc] at hmessage
    exact ⟨ref, h, rfl, hmessage⟩
  | missingRequest requester responder step => exact (hw rfl).elim
  | duplicate what ref first =>
    have hfront : OpensName ("duplicate definition of " ++ what.text ++ " `") := by
      cases what <;> decide
    exact ⟨ref, h, rfl, quotedNames_one hfront (by decide) (hP ref h)⟩

theorem quotes_two {requester responder : Ident} (hrequester : IsWord requester)
    (hresponder : IsWord responder) (step : Span) :
    quotedNames (missingRequest requester responder step).message = [requester, responder] :=
  quotedNames_two (by decide) (by decide) (by decide) hrequester hresponder

theorem primarySpan?_diagnostic (w : Violation) : w.diagnostic.primarySpan? = some w.span := rfl

end Violation

/-! ## Walks -/

section Cites

variable {P : Spanned Ident → Prop} {Q : Ident → Ident → Span → Prop}

theorem Violation.About.cites {ref : Spanned Ident} {w : Violation} (h : w.About ref)
    (href : P ref) : w.Cites P Q ∧ w.code ≠ .duplicateDefinition := by
  cases w <;> cases h <;> exact ⟨href, nofun⟩

/-- A check that fails is about what it cites, and the strict policy alone finds duplicates. -/
theorem Check.cites_test {policy : Redeclaration} {s : Scope} {c : Check}
    (hc : (Act.check c).Cites P Q) {w : Violation} (h : c.test policy s = .error w) :
    w.Cites P Q ∧ (w.code = .duplicateDefinition → policy = .reject) := by
  have habout {ref : Spanned Ident} (hw : w.About ref) (href : P ref) :
      w.Cites P Q ∧ (w.code = .duplicateDefinition → policy = .reject) := by
    obtain ⟨hcites, hcode⟩ := hw.cites (Q := Q) href
    exact ⟨hcites, fun hdup => absurd hdup hcode⟩
  cases c with
  | known ref => exact habout (about_of_actor (map_eq_error h)) hc
  | active role ref => exact habout (about_of_active h) hc
  | store role ref => exact habout (about_of_store h) hc
  | requested requester responder step =>
    simp only [Check.test] at h
    split at h
    · cases h
    · cases h
      exact ⟨hc, fun hdup => by cases hdup⟩
  | unused what ref =>
    obtain ⟨hpolicy, _, _, _, rfl⟩ := exists_first_of_checkNew h
    exact ⟨hc, fun _ => hpolicy⟩

theorem perform_cites {policy : Redeclaration} {acts : List Act} {s : Scope} {w : Violation}
    (hacts : ∀ a ∈ acts, a.Cites P Q) (h : perform policy acts s = .error w) :
    w.Cites P Q ∧ (w.code = .duplicateDefinition → policy = .reject) := by
  induction acts generalizing s with
  | nil => cases h
  | cons a acts ih =>
    obtain ⟨ha, hrest⟩ := List.forall_mem_cons.1 hacts
    cases a with
    | check c =>
      simp only [perform] at h
      cases hc : c.test policy s with
      | error v =>
        rw [hc] at h
        cases h
        exact Check.cites_test ha hc
      | ok u =>
        rw [hc] at h
        exact ih hrest h
    | effect e => exact ih hrest h

end Cites

/-- The ends are identifiers of the program, one after the other, and the span reaches from the
first to the second. -/
def Program.Asks (p : Program) (requester responder : Ident) (step : Span) : Prop :=
  ∃ a b, [a, b].Sublist (identifiersOf p) ∧ a.value = requester ∧ b.value = responder ∧
    step = a.span.union b.span

/-- A violation is about an identifier of its program or about a response. -/
theorem Program.elaborate_cites {options : ElaborationOptions} {p : Program} {w : Violation}
    (hsteps : ∀ x ∈ stepsOf p, SpansEnds x) (h : p.elaborate options = .error w) :
    w.Cites (· ∈ identifiersOf p) p.Asks ∧
      (w.code = .duplicateDefinition → options.redeclaration = .reject) := by
  refine perform_cites (cites_visitsOf [] 0 (fun x hx => hx) fun x hx => ?_)
    (Program.elaborate_eq_error_iff.1 h)
  intro requester responder message hvalue
  obtain ⟨a, b, hends, hspan⟩ := hsteps x hx
  have hsublist := identifiers_sublist_of_mem_stepsOf hx
  rw [hvalue] at hends
  rw [hvalue] at hsublist
  cases hends
  exact ⟨requester, responder, hsublist, rfl, rfl, hspan⟩

/-! ## Sources -/

/-- The diagnostic is about the meaning of the source and points at what its message quotes: at
the identifier that is wrong, of a duplicate also at the same identifier before it, and of a
response without a request from the one end to the other. -/
structure Diagnostic.Quotes (source : String) (d : Diagnostic) : Prop where
  code : ∃ c ∈ Phase.meaning.codes, d.code = some c
  named : ∀ c ∈ [ErrorCode.undefinedIdentifier, .invalidEndpoint, .notAnActor,
      .duplicateDefinition], d.code = some c → ∃ span name, d.primarySpan? = some span ∧
    quotedNames d.message = [name] ∧ span.slice source = name
  repeated : d.code = some .duplicateDefinition → ∃ first second note note',
    d.labels = [⟨second, note, true⟩, ⟨first, note', false⟩] ∧
      first.slice source = second.slice source ∧ first.start < second.start
  answered : d.code = some .missingRequest → ∃ span requester responder middle,
    d.primarySpan? = some span ∧ quotedNames d.message = [requester, responder] ∧
      span.slice source = requester ++ middle ++ responder

section

variable {source : String} {lexemes : List (Spanned Lexeme)} {p : Program}
  {options : ElaborationOptions} {w : Violation}

/-- The first definition of a duplicate is an identifier of the program that is written alike. -/
theorem Violation.repeats_of_duplicate (ht : tokenize source = .ok lexemes)
    (hp : Program.ofTokens (meaningful lexemes) = .ok p) (h : p.elaborate options = .error w)
    (hw : w.code = .duplicateDefinition) : ∃ what d e, w = .duplicate what d e.span ∧
      d ∈ identifiersOf p ∧ e ∈ identifiersOf p ∧ d.value = e.value ∧
        e.span.start < d.span.start := by
  have hsteps := Reader.readProgram_spansEnds hp
  have hpolicy := (Program.elaborate_cites hsteps h).2 hw
  rw [Program.elaborate_eq_error_iff, hpolicy] at h
  rcases Program.perform_reject_error h with hreplace | ⟨d, e, hfirst, rfl⟩
  · -- a walk that replaces finds no duplicate
    have hreplace : p.elaborate .default = .error w :=
      Program.elaborate_eq_error_iff.2 hreplace
    cases (Program.elaborate_cites hsteps hreplace).2 hw
  · have hstart := hfirst.start_lt ht hp
    obtain ⟨_, _, after, first, between, _, _, _, _, hdefinitions, hrepeats, _⟩ := hfirst
    have hmem : ∀ f ∈ definitionsOf p, f.ref ∈ identifiersOf p := fun f hf =>
      (definitionsOf_sublist p).subset (List.mem_map_of_mem hf)
    refine ⟨d.what, d.ref, e.ref, rfl, hmem d ?_, hmem e ?_, hrepeats.1, hstart⟩
    · rw [hdefinitions]
      exact List.mem_append_right _ List.mem_cons_self
    · rw [hdefinitions]
      exact List.mem_append_left _ (List.mem_append_right _ List.mem_cons_self)

/-- The diagnostic of a violation points at what it quotes. -/
theorem Violation.quotes (ht : tokenize source = .ok lexemes)
    (hp : Program.ofTokens (meaningful lexemes) = .ok p) (h : p.elaborate options = .error w) :
    w.diagnostic.Quotes source where
  code := ⟨w.code, by cases w <;> simp [Violation.code, Phase.codes], rfl⟩
  named c hc hcode := by
    obtain rfl : w.code = c := Option.some.inj hcode
    have hne : w.code ≠ .missingRequest := by
      intro heq
      rw [heq] at hc
      exact absurd hc (by decide)
    obtain ⟨ref, href, hspan, hmessage⟩ :=
      quotes_one (isWord_of_mem_identifiersOf ht hp)
        (Program.elaborate_cites (Reader.readProgram_spansEnds hp) h).1 hne
    exact ⟨w.span, ref.value, w.primarySpan?_diagnostic, hmessage,
      hspan ▸ (written_of_source ht hp ref href).slice_eq⟩
  repeated hcode := by
    obtain ⟨what, d, e, rfl, hd, he, hvalue, hstart⟩ :=
      repeats_of_duplicate ht hp h (Option.some.inj hcode)
    refine ⟨e.span, d.span, _, _, rfl, ?_, hstart⟩
    rw [(written_of_source ht hp d hd).slice_eq, (written_of_source ht hp e he).slice_eq, hvalue]
  answered hcode := by
    have hcites := (Program.elaborate_cites (Reader.readProgram_spansEnds hp) h).1
    cases w with
    | missingRequest requester responder step =>
      obtain ⟨a, b, hends, rfl, rfl, rfl⟩ := hcites
      have ha : a ∈ identifiersOf p := hends.subset List.mem_cons_self
      have hb : b ∈ identifiersOf p := hends.subset (List.mem_cons_of_mem a List.mem_cons_self)
      have hwords := isWord_of_mem_identifiersOf ht hp
      have happart := (identifiers_apart ht hp).sublist (hends.map Spanned.span)
      have hab : a.span.stop ≤ b.span.start := List.rel_of_pairwise_cons happart List.mem_cons_self
      obtain ⟨middle, hslice⟩ :=
        (written_of_source ht hp a ha).slice_union (written_of_source ht hp b hb) hab
      have hmessage := quotes_two (hwords a ha) (hwords b hb) (a.span.union b.span)
      exact ⟨_, a.value, b.value, middle, rfl, hmessage, hslice⟩
    | _ => cases hcode

/-- A source whose letters and grammar are right and that has no model has one diagnostic, and
this points at what its message quotes. -/
theorem compile_quotes (ht : tokenize source = .ok lexemes)
    (hp : Program.ofTokens (meaningful lexemes) = .ok p) {ds : List Diagnostic}
    (h : compile options source = .error ds) : ∃ d, ds = [d] ∧ d.Quotes source := by
  rw [compile_of_program ht hp] at h
  cases hw : p.elaborate options with
  | ok m =>
    rw [hw] at h
    cases h
  | error w =>
    rw [hw] at h
    cases h
    exact ⟨w.diagnostic, rfl, Violation.quotes ht hp hw⟩

end

/-- A response in a container that nobody requested, after characters of several bytes. -/
def unasked : String :=
  "user 'Ü' as u; // ü\ncontainer '€' as c \x7b agent 'A' as a 's' \x7b u -- ('é') --< a \x7d \x7d;"

/-- An actor with the id of its container, after characters of several bytes. -/
def twice : String := "// €\ncontainer 'Ü' as cc \x7b agent 'é' as cc \x7d;"

/-- The response is marked from the one end to the other, and the actor where it repeats the id
of its container. -/
theorem compile_quotes_unasked :
    (∃ d, compile .default unasked = .error [d] ∧ d.Quotes unasked ∧
      d.code = some .missingRequest ∧ quotedNames d.message = ["u", "a"]) ∧
    ∃ d, compile ⟨true, .reject⟩ twice = .error [d] ∧ d.Quotes twice ∧
      d.code = some .duplicateDefinition ∧ quotedNames d.message = ["cc"] := by
  obtain ⟨_, _, ht, hp⟩ := exists_program unasked (by decide +kernel)
  obtain ⟨_, _, ht', hp'⟩ := exists_program twice (by decide +kernel)
  obtain ⟨ds, h, hseen⟩ := exists_error_of_seen (r := compile .default unasked)
    (f := List.map fun d => (d.code, quotedNames d.message))
    (b := [(some .missingRequest, ["u", "a"])]) (by decide +kernel)
  obtain ⟨ds', h', hseen'⟩ := exists_error_of_seen (r := compile ⟨true, .reject⟩ twice)
    (f := List.map fun d => (d.code, quotedNames d.message))
    (b := [(some .duplicateDefinition, ["cc"])]) (by decide +kernel)
  obtain ⟨d, rfl, hd⟩ := compile_quotes ht hp h
  obtain ⟨d', rfl, hd'⟩ := compile_quotes ht' hp' h'
  obtain ⟨hcode, hnames⟩ := Prod.mk.inj (List.head_eq_of_cons_eq hseen)
  obtain ⟨hcode', hnames'⟩ := Prod.mk.inj (List.head_eq_of_cons_eq hseen')
  exact ⟨⟨d, h, hd, hcode, hnames⟩, d', h', hd', hcode', hnames'⟩

end ArchScript
