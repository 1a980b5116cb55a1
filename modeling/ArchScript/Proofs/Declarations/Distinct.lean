/-
  Rejecting second definitions refines replacing them.

  A strict walk keeps pace with one that replaces until a definition repeats an id: it gives
  the same scope or the same violation, or it stops at the first definition that repeats one
  before anything else is wrong (`StrictRun`). What a scope notes of definitions is their
  list so far (`Scope.Notes`), so a container counts from its head on.
-/
import ArchScript.Proofs.Checking.Policies
import ArchScript.Proofs.Names.Order

namespace ArchScript

/-! ## Definitions of a program -/

/-- A definition of an actor, annotation or container: what it defines and the id. -/
structure Definition where
  what : DefinitionKind
  ref : Spanned Ident
deriving DecidableEq

namespace Definition

/-- What is defined. -/
def member (d : Definition) : Member :=
  match d.what with
  | .actor => ⟨.actor, d.ref.value⟩
  | DefinitionKind.annotation => ⟨MemberKind.annotation, d.ref.value⟩
  | .container => ⟨.container, d.ref.value⟩

/-- Both definitions give the same id. Actors and containers share their ids; annotations
have ids of their own. -/
def Repeats (d e : Definition) : Prop :=
  d.ref.value = e.ref.value ∧
    (d.what = DefinitionKind.annotation ↔ e.what = DefinitionKind.annotation)

instance (d e : Definition) : Decidable (d.Repeats e) := inferInstanceAs (Decidable (_ ∧ _))

/-- Definitions that one definition repeats give the same id. -/
theorem Repeats.of_common {d e f : Definition} (h : d.Repeats e) (h' : d.Repeats f) :
    e.Repeats f :=
  ⟨h.1.symm.trans h'.1, h.2.symm.trans h'.2⟩

theorem member_mem_rivals_iff {d e : Definition} :
    e.member ∈ d.what.rivals d.ref.value ↔ d.Repeats e := by
  obtain ⟨what, ref⟩ := d
  obtain ⟨what', ref'⟩ := e
  cases what <;> cases what' <;> simp [member, DefinitionKind.rivals, Repeats, eq_comm]

end Definition

/-- No definition repeats an earlier one. -/
def Distinct (ds : List Definition) : Prop := ds.Pairwise fun e d => ¬ d.Repeats e

/-- Definitions are distinct when the ids of actors and containers are, and those of
annotations are. -/
theorem distinct_iff (ds : List Definition) :
    Distinct ds ↔
      ((ds.filter fun d => d.what ≠ DefinitionKind.annotation).map fun d => d.ref.value).Nodup ∧
        ((ds.filter fun d => d.what = DefinitionKind.annotation).map fun d => d.ref.value).Nodup := by
  unfold Distinct List.Nodup
  rw [List.pairwise_map, List.pairwise_map, List.pairwise_filter, List.pairwise_filter,
    ← List.pairwise_and_iff]
  refine List.Pairwise.iff fun {e d} => ?_
  simp only [Definition.Repeats, decide_eq_true_eq, eq_comm (a := d.ref.value)]
  by_cases he : e.what = DefinitionKind.annotation <;>
    by_cases hd : d.what = DefinitionKind.annotation <;> simp [he, hd]

mutual

/-- What a statement defines, in source order; a container comes before its body. -/
def Statement.definitions : Statement → List Definition
  | .actor d => [⟨.actor, d.id⟩]
  | Statement.annotation d => [⟨DefinitionKind.annotation, d.id⟩]
  | .container head body => ⟨.container, head.id⟩ :: definitionsOf body
  | _ => []

/-- What the statements of a program define, in source order. -/
def definitionsOf : List (Spanned Statement) → List Definition
  | [] => []
  | ⟨x, _⟩ :: xs => x.definitions ++ definitionsOf xs

end

/-! ## Definitions of a walk -/

/-- What a check asks leave to define. -/
def Act.definition? : Act → Option Definition
  | .check (.unused what ref) => some ⟨what, ref⟩
  | _ => none

/-- What an effect defines. -/
def Effect.definition? : Effect → Option Definition
  | declareActor d => some ⟨.actor, d.id⟩
  | annotate d => some ⟨DefinitionKind.annotation, d.id⟩
  | openBody _ head => some ⟨.container, head.id⟩
  | _ => none

/-- The definitions that visits ask leave for, in order. -/
def definitionsIn (vs : List Visit) : List Definition :=
  vs.filterMap fun v => v.act.definition?

theorem definitionsIn_append (vs ws : List Visit) :
    definitionsIn (vs ++ ws) = definitionsIn vs ++ definitionsIn ws := List.filterMap_append

/-- The act has nothing to do with definitions. -/
def Act.Plain : Act → Prop
  | .check c => ∀ what ref, c ≠ .unused what ref
  | .effect e => e.definition? = none

theorem Act.Plain.definition? {a : Act} (h : a.Plain) : a.definition? = none := by
  cases a with
  | effect e => rfl
  | check c =>
    cases c with
    | unused what ref => exact absurd rfl (h what ref)
    | _ => rfl

theorem Act.Relates.plain {a : Act} (h : a.Relates) : a.Plain := by
  cases a with
  | check c =>
    cases c with
    | unused what ref => cases h
    | _ => exact nofun
  | effect e =>
    cases e with
    | declareActor d => cases h
    | annotate d => cases h
    | openBody path head => cases h
    | _ => rfl

/-- A statement that defines nothing has plain acts. -/
theorem plain_acts {x : Statement} (h : x.definitions = []) : ∀ a ∈ x.acts, a.Plain := by
  cases x with
  | actor d => cases h
  | note d => exact List.forall_mem_cons.2 ⟨nofun, List.forall_mem_singleton.2 rfl⟩
  | assignment d => exact List.forall_mem_cons.2 ⟨nofun, List.forall_mem_singleton.2 rfl⟩
  | call d => exact fun a ha => (d.relates_acts a ha).plain
  | flow d => exact fun a ha => (d.relates_acts a ha).plain
  | «annotation» d => cases h
  | scenario d => exact fun a ha => (d.relates_acts a ha).plain
  | container head inner => cases h

theorem definitionsIn_map_mk {acts : List Act} (h : ∀ a ∈ acts, a.Plain) (body : BodyPath) :
    definitionsIn (acts.map (Visit.mk body)) = [] := by
  unfold definitionsIn
  rw [List.filterMap_map, List.filterMap_eq_nil_iff]
  exact fun a ha => (h a ha).definition?

/-- The definitions of a walk are those of its program. -/
theorem definitionsIn_visitsOf (xs : List (Spanned Statement)) (body : BodyPath) (i : Nat) :
    definitionsIn (visitsOf body i xs) = definitionsOf xs := by
  induction xs using Program.induction generalizing body i with
  | nil => rfl
  | flat x span xs hx ih =>
    rw [visitsOf_flat hx, definitionsIn_append, ih, definitionsOf]
    refine congrArg (· ++ _) ?_
    cases x with
    | actor d => rfl
    | «annotation» d => rfl
    | container head inner => exact hx.elim
    | _ => exact definitionsIn_map_mk (plain_acts rfl) body
  | container head inner span xs ih₁ ih₂ =>
    rw [visitsOf_container, definitionsOf, Statement.definitions]
    simp only [definitionsIn, List.filterMap_cons, List.filterMap_append, Act.definition?,
      List.cons_append]
    exact congrArg _ (congrArg₂ _ (ih₁ (i :: body) 0) (ih₂ body (i + 1)))

/-! ## Definitions that a scope has noted -/

/-- An effect notes what it defines. -/
theorem Scope.firstDefined_apply (e : Effect) (s : Scope) :
    (e.apply s).firstDefined =
      match e.definition? with
      | some d => s.firstDefined.insertIfNew d.member d.ref.span
      | none => s.firstDefined := by
  cases e with
  | setNote target text => exact updateActor_frame firstDefined (fun _ _ => rfl) s target _
  | assign target refs => exact updateActor_frame firstDefined (fun _ _ => rfl) s target _
  | useChannel c => exact Effect.useChannel_frame firstDefined (fun _ _ => rfl) c s
  | useFlow f => exact Effect.useFlow_frame firstDefined (fun _ _ => rfl) f s
  | _ => rfl

/-- The scope has noted where the definitions stand, of one member the first. -/
def Scope.Notes (s : Scope) (ds : List Definition) : Prop :=
  ∀ m, s.firstDefined.get? m = (ds.find? fun d => d.member = m).map fun d => d.ref.span

namespace Scope.Notes

variable {s : Scope} {ds : List Definition}

theorem empty : Scope.empty.Notes [] := fun _ => rfl

theorem apply (h : s.Notes ds) (e : Effect) : (e.apply s).Notes (ds ++ e.definition?.toList) := by
  intro m
  rw [Scope.firstDefined_apply]
  cases e.definition? with
  | none =>
    rw [Option.toList_none, List.append_nil]
    exact h m
  | some d =>
    simp only [Table.get?_insertIfNew, h m, Option.toList_some, List.find?_append]
    by_cases hd : d.member = m <;> cases ds.find? fun d => d.member = m <;> simp [hd]

/-- A strict check passes when the definition repeats none that is noted, and else points at
one that it repeats. -/
theorem test_unused (h : s.Notes ds) (d : Definition) :
    (∀ e ∈ ds, ¬ d.Repeats e) ∧ (Check.unused d.what d.ref).test .reject s = .ok () ∨
      ∃ e ∈ ds, d.Repeats e ∧ (Check.unused d.what d.ref).test .reject s =
        .error (.duplicate d.what d.ref e.ref.span) := by
  simp only [Check.test, Elaboration.checkNew]
  cases hfirst : (d.what.rivals d.ref.value).findSome? s.firstDefined.get? with
  | none =>
    refine Or.inl ⟨fun e he hrepeats => ?_, rfl⟩
    have hnone := List.findSome?_eq_none_iff.1 hfirst _
      (Definition.member_mem_rivals_iff.2 hrepeats)
    rw [h, Option.map_eq_none_iff, List.find?_eq_none] at hnone
    exact hnone e he (decide_eq_true rfl)
  | some first =>
    obtain ⟨m, hm, hspan⟩ := List.exists_of_findSome?_eq_some hfirst
    rw [h] at hspan
    obtain ⟨e, he, rfl⟩ := Option.map_eq_some_iff.1 hspan
    have hmember := List.find?_some he
    simp only [decide_eq_true_eq] at hmember
    rw [← hmember] at hm
    exact Or.inr ⟨e, List.mem_of_find?_eq_some he, Definition.member_mem_rivals_iff.1 hm, rfl⟩

end Scope.Notes

/-! ## Strict walks -/

/-- Among visits in a scope with the definitions `ds`, the definition `d` is the first that
repeats one, `e`; until there nothing is wrong. -/
def FirstRepeatIn (ds : List Definition) (s : Scope) (vs : List Visit) (d e : Definition) : Prop :=
  ∃ before body after t, vs = before ++ ⟨body, .check (.unused d.what d.ref)⟩ :: after ∧
    perform .replace (before.map Visit.act) s = .ok t ∧ Distinct (ds ++ definitionsIn before) ∧
      e ∈ ds ++ definitionsIn before ∧ d.Repeats e

theorem perform_append_ok {policy : Redeclaration} {vs ws : List Visit} {s t : Scope}
    (h : perform policy (vs.map Visit.act) s = .ok t) :
    perform policy ((vs ++ ws).map Visit.act) s = perform policy (ws.map Visit.act) t := by
  rw [List.map_append, perform_append, h]
  rfl

theorem perform_append_error {policy : Redeclaration} {vs : List Visit} (ws : List Visit)
    {s : Scope} {w : Violation} (h : perform policy (vs.map Visit.act) s = .error w) :
    perform policy ((vs ++ ws).map Visit.act) s = .error w := by
  rw [List.map_append, perform_append, h]
  rfl

namespace FirstRepeatIn

variable {ds : List Definition} {s mid : Scope} {vs ws : List Visit} {d e : Definition}

theorem append_right (h : FirstRepeatIn ds s vs d e) (ws : List Visit) :
    FirstRepeatIn ds s (vs ++ ws) d e := by
  obtain ⟨before, body, after, t, rfl, h⟩ := h
  exact ⟨before, body, after ++ ws, t, List.append_assoc _ _ _, h⟩

theorem append_left (hrun : perform .replace (vs.map Visit.act) s = .ok mid)
    (h : FirstRepeatIn (ds ++ definitionsIn vs) mid ws d e) : FirstRepeatIn ds s (vs ++ ws) d e := by
  obtain ⟨before, body, after, t, rfl, hbefore, hrest⟩ := h
  refine ⟨vs ++ before, body, after, t, (List.append_assoc _ _ _).symm, ?_, ?_⟩
  · rw [perform_append_ok hrun, hbefore]
  · rw [definitionsIn_append, ← List.append_assoc]
    exact hrest

end FirstRepeatIn

/-- A strict walk goes like one that replaces, and what it has defined is distinct; or it
stops at the first definition that repeats one. -/
inductive StrictRun (ds : List Definition) (s : Scope) (vs : List Visit) : Prop where
  | same (run : perform .reject (vs.map Visit.act) s = perform .replace (vs.map Visit.act) s)
      (noted : ∀ t, perform .replace (vs.map Visit.act) s = .ok t →
        t.Notes (ds ++ definitionsIn vs) ∧ Distinct (ds ++ definitionsIn vs))
  | repeats {d e : Definition} (first : FirstRepeatIn ds s vs d e)
      (stops : perform .reject (vs.map Visit.act) s =
        .error (.duplicate d.what d.ref e.ref.span))

/-- Visits that a strict walk makes as said, wherever it has noted distinct definitions. -/
def Strict (vs : List Visit) : Prop :=
  ∀ ds s, s.Notes ds → Distinct ds → StrictRun ds s vs

namespace Strict

variable {vs ws : List Visit}

theorem nil : Strict [] := by
  intro ds s hs hds
  refine .same rfl fun t ht => ?_
  cases ht
  rw [definitionsIn, List.filterMap_nil, List.append_nil]
  exact ⟨hs, hds⟩

theorem append (hv : Strict vs) (hw : Strict ws) : Strict (vs ++ ws) := by
  intro ds s hs hds
  cases hv ds s hs hds with
  | repeats first stops =>
    exact .repeats (first.append_right ws) (perform_append_error ws stops)
  | same run noted =>
    cases hrun : perform .replace (vs.map Visit.act) s with
    | error w =>
      rw [hrun] at run
      refine .same ?_ fun t ht => ?_
      · rw [perform_append_error ws run, perform_append_error ws hrun]
      · rw [perform_append_error ws hrun] at ht
        cases ht
    | ok mid =>
      obtain ⟨hmid, hdistinct⟩ := noted mid hrun
      rw [hrun] at run
      cases hw _ mid hmid hdistinct with
      | repeats first stops =>
        refine .repeats (first.append_left hrun) ?_
        rw [perform_append_ok run, stops]
      | same run' noted' =>
        refine .same ?_ fun t ht => ?_
        · rw [perform_append_ok run, perform_append_ok hrun, run']
        · rw [perform_append_ok hrun] at ht
          rw [definitionsIn_append, ← List.append_assoc]
          exact noted' t ht

/-- A plain act is the same under both policies. -/
theorem plain {a : Act} (h : a.Plain) (body : BodyPath) : Strict [⟨body, a⟩] := by
  intro ds s hs hds
  have hdefinitions : definitionsIn [⟨body, a⟩] = [] :=
    definitionsIn_map_mk (List.forall_mem_singleton.2 h) body
  refine .same ?_ fun t ht => ?_
  · cases a with
    | effect e => rfl
    | check c =>
      cases c with
      | unused what ref => exact absurd rfl (h what ref)
      | _ => rfl
  · rw [hdefinitions, List.append_nil]
    refine ⟨?_, hds⟩
    cases a with
    | effect e =>
      cases ht
      have happly := hs.apply e
      rw [show e.definition? = none from h, Option.toList_none, List.append_nil] at happly
      exact happly
    | check c =>
      obtain ⟨_, _, ht⟩ := Reader.bind_eq_ok.1 ht
      cases ht
      exact hs

theorem plain_map_mk {acts : List Act} (h : ∀ a ∈ acts, a.Plain) (body : BodyPath) :
    Strict (acts.map (Visit.mk body)) := by
  induction acts with
  | nil => exact nil
  | cons a acts ih =>
    obtain ⟨ha, hacts⟩ := List.forall_mem_cons.1 h
    exact (plain ha body).append (ih hacts)

/-- A definition that is checked and then made. -/
theorem define {e : Effect} {d : Definition} (he : e.definition? = some d)
    (body : BodyPath) :
    Strict [⟨body, .check (.unused d.what d.ref)⟩, ⟨body, .effect e⟩] := by
  intro ds s hs hds
  rcases hs.test_unused d with ⟨hnew, htest⟩ | ⟨e', he', hrepeats, htest⟩
  · refine .same ?_ fun t ht => ?_
    · simp only [List.map_cons, perform, htest]
      rfl
    · cases ht
      have happly := hs.apply e
      rw [he] at happly
      refine ⟨happly, List.pairwise_append.2 ⟨hds, List.pairwise_singleton _ _, ?_⟩⟩
      intro e' he' d' hd'
      rw [List.mem_singleton.1 hd']
      exact hnew e' he'
  · refine .repeats ⟨[], body, [⟨body, .effect e⟩], s, rfl, rfl, ?_, ?_, hrepeats⟩ ?_
    · rw [definitionsIn, List.filterMap_nil, List.append_nil]
      exact hds
    · exact List.mem_append_left _ he'
    · simp only [List.map_cons, perform, htest]
      rfl

end Strict

theorem strict_acts {x : Statement} (hx : x.IsFlat) (body : BodyPath) :
    Strict (x.acts.map (Visit.mk body)) := by
  cases x with
  | actor d => exact Strict.define (e := .declareActor d) rfl body
  | «annotation» d => exact Strict.define (e := .annotate d) rfl body
  | container head inner => exact hx.elim
  | _ => exact Strict.plain_map_mk (plain_acts rfl) body

theorem strict_visitsOf (xs : List (Spanned Statement)) (body : BodyPath) (i : Nat) :
    Strict (visitsOf body i xs) := by
  induction xs using Program.induction generalizing body i with
  | nil => exact Strict.nil
  | flat x span xs hx ih =>
    rw [visitsOf_flat hx]
    exact (strict_acts hx body).append (ih body (i + 1))
  | container head inner span xs ih₁ ih₂ =>
    rw [visitsOf_container]
    have hopen := Strict.define (e := .openBody (i :: body) head) rfl body
    have hclose := Strict.plain (a := .effect (.closeBody (i :: body) head)) rfl body
    exact hopen.append ((ih₁ (i :: body) 0).append (hclose.append (ih₂ body (i + 1))))

/-! ## Programs -/

namespace Program

variable {p : Program}

theorem strictRun (p : Program) : StrictRun [] .empty p.visits :=
  strict_visitsOf p [] 0 [] .empty .empty .nil

theorem definitionsIn_visits (p : Program) : definitionsIn p.visits = definitionsOf p :=
  definitionsIn_visitsOf p [] 0

/-- A strict walk succeeds when the other does and all definitions are distinct. -/
theorem perform_reject_eq_ok_iff {s : Scope} :
    perform .reject (p.visits.map Visit.act) .empty = .ok s ↔
      perform .replace (p.visits.map Visit.act) .empty = .ok s ∧ Distinct (definitionsOf p) := by
  cases p.strictRun with
  | same run noted =>
    rw [run, iff_self_and]
    intro h
    have hdistinct := (noted s h).2
    rw [List.nil_append, definitionsIn_visits] at hdistinct
    exact hdistinct
  | repeats first stops =>
    rw [stops]
    refine ⟨nofun, fun ⟨_, hdistinct⟩ => ?_⟩
    obtain ⟨before, body, after, t, hvisits, _, _, he, hrepeats⟩ := first
    rw [← definitionsIn_visits, hvisits, definitionsIn_append] at hdistinct
    exact absurd hrepeats ((List.pairwise_append.1 hdistinct).2.2 _ he _ List.mem_cons_self)

/-- `d` is the first definition of the program that repeats an id, and `e` is the first one of
this id: the definitions before `d` are distinct, and until `d` nothing else is wrong. -/
def FirstRepeat (p : Program) (d e : Definition) : Prop :=
  ∃ before body after first between,
    p.visits = before ++ ⟨body, .check (.unused d.what d.ref)⟩ :: after ∧
      (∃ s, perform .replace (before.map Visit.act) .empty = .ok s) ∧
      definitionsIn before = first ++ e :: between ∧ Distinct (first ++ e :: between) ∧
      definitionsOf p = first ++ e :: between ++ d :: definitionsIn after ∧ d.Repeats e ∧
      ∀ f ∈ first, ¬ d.Repeats f

theorem perform_reject_error {w : Violation}
    (h : perform .reject (p.visits.map Visit.act) .empty = .error w) :
    perform .replace (p.visits.map Visit.act) .empty = .error w ∨
      ∃ d e, p.FirstRepeat d e ∧ w = .duplicate d.what d.ref e.ref.span := by
  cases p.strictRun with
  | same run noted =>
    rw [run] at h
    exact Or.inl h
  | repeats first stops =>
    rw [stops, Except.error.injEq] at h
    obtain ⟨before, body, after, t, hvisits, ht, hdistinct, he, hrepeats⟩ := first
    rw [List.nil_append] at hdistinct he
    obtain ⟨first, between, hbefore⟩ := List.append_of_mem he
    rw [hbefore] at hdistinct
    refine Or.inr ⟨_, _, ⟨before, body, after, first, between, hvisits, ⟨t, ht⟩, hbefore,
      hdistinct, ?_, hrepeats, fun f hf hf' => ?_⟩, h.symm⟩
    · rw [← definitionsIn_visits, hvisits, definitionsIn_append, hbefore]
      rfl
    · have hapart := (List.pairwise_append.1 hdistinct).2.2 f hf _ List.mem_cons_self
      exact hapart (hrepeats.of_common hf')

end Program

/-! ## Places of definitions -/

theorem Statement.definitions_sublist_of_isFlat {x : Statement} (h : x.IsFlat) :
    (x.definitions.map Definition.ref).Sublist x.identifiers := by
  cases x with
  | actor d => exact List.singleton_sublist.2 List.mem_cons_self
  | «annotation» d => exact List.Sublist.refl _
  | container head inner => exact h.elim
  | _ => exact List.nil_sublist _

theorem definitionsOf_sublist (xs : List (Spanned Statement)) :
    ((definitionsOf xs).map Definition.ref).Sublist (identifiersOf xs) := by
  induction xs using Program.induction with
  | nil => exact .slnil
  | flat x span xs hx ih =>
    rw [definitionsOf, identifiersOf, List.map_append]
    exact (Statement.definitions_sublist_of_isFlat hx).append ih
  | container head inner span xs ih₁ ih₂ =>
    rw [definitionsOf, identifiersOf, Statement.definitions, Statement.identifiers,
      List.map_append, List.map_cons]
    exact (ih₁.cons_cons head.id).append ih₂

/-- In a source a definition begins after the one that it repeats. -/
theorem Program.FirstRepeat.start_lt {source : String} {lexemes : List (Spanned Lexeme)}
    {p : Program} (ht : tokenize source = .ok lexemes)
    (hp : Program.ofTokens (meaningful lexemes) = .ok p) {d e : Definition}
    (h : p.FirstRepeat d e) : e.ref.span.start < d.ref.span.start := by
  obtain ⟨_, _, after, first, between, _, _, _, _, hdefinitions, _, _⟩ := h
  have hspans := (identifiers_ascending ht hp).sublist
    ((definitionsOf_sublist p).map Spanned.span)
  rw [List.map_map, List.pairwise_map, hdefinitions] at hspans
  exact (List.pairwise_append.1 hspans).2.2 e
    (List.mem_append_right _ List.mem_cons_self) d List.mem_cons_self

/-- Rejecting second definitions refines replacing them. A model is given when replacing
gives it, the ids of actors and containers are distinct and those of annotations are. If
there is none, the violation is that of replacing, or it is the duplicate at the first
definition that repeats one; then nothing else is wrong before it, and its labels are at
this definition and at the one that it repeats, which in a source begins earlier. -/
theorem reject_refines_replace :
    (∀ (p : Program) resolve m, p.elaborate ⟨resolve, .reject⟩ = .ok m ↔
      p.elaborate ⟨resolve, .replace⟩ = .ok m ∧
      (((definitionsOf p).filter fun d => d.what ≠ DefinitionKind.annotation).map
        fun d => d.ref.value).Nodup ∧
      (((definitionsOf p).filter fun d => d.what = DefinitionKind.annotation).map
        fun d => d.ref.value).Nodup) ∧
    (∀ (p : Program) resolve w, p.elaborate ⟨resolve, .reject⟩ = .error w →
      p.elaborate ⟨resolve, .replace⟩ = .error w ∨
      ∃ d e, p.FirstRepeat d e ∧ w = .duplicate d.what d.ref e.ref.span ∧
        w.diagnostic.code = some .duplicateDefinition ∧
        w.diagnostic.labels = [⟨d.ref.span, "defined again here", true⟩,
          ⟨e.ref.span, "first defined here", false⟩]) ∧
    ∀ source lexemes p, tokenize source = .ok lexemes →
      Program.ofTokens (meaningful lexemes) = .ok p →
        ∀ d e, p.FirstRepeat d e → e.ref.span.start < d.ref.span.start := by
  refine ⟨fun p resolve m => ?_, fun p resolve w h => ?_,
    fun source lexemes p ht hp d e h => h.start_lt ht hp⟩
  · rw [← distinct_iff]
    constructor
    · intro h
      obtain ⟨s, hs, rfl⟩ := Program.exists_scope h
      obtain ⟨hreplace, hdistinct⟩ := Program.perform_reject_eq_ok_iff.1 hs
      exact ⟨Program.elaborate_of_perform ⟨resolve, .replace⟩ hreplace, hdistinct⟩
    · rintro ⟨h, hdistinct⟩
      obtain ⟨s, hs, rfl⟩ := Program.exists_scope h
      exact Program.elaborate_of_perform ⟨resolve, .reject⟩
        (Program.perform_reject_eq_ok_iff.2 ⟨hs, hdistinct⟩)
  · rw [Program.elaborate_eq_error_iff] at h ⊢
    refine (Program.perform_reject_error h).imp_right ?_
    rintro ⟨d, e, hfirst, rfl⟩
    exact ⟨d, e, hfirst, rfl, rfl, rfl⟩

/-- A source with an actor that has the id of its container. -/
def namedLikeContainer : String := "container 'C' as c \x7b agent 'A' as c \x7d;"

/-- The actor repeats the id of the container that is still open. -/
theorem reject_refines_replace_namedLikeContainer :
    ∃ lexemes p m d e, tokenize namedLikeContainer = .ok lexemes ∧
      Program.ofTokens (meaningful lexemes) = .ok p ∧
      p.elaborate ⟨true, .replace⟩ = .ok m ∧
      p.elaborate ⟨true, .reject⟩ = .error (.duplicate d.what d.ref e.ref.span) ∧
      p.FirstRepeat d e ∧ e.ref.span.start < d.ref.span.start := by
  have hreplace : (compile ⟨true, .replace⟩ namedLikeContainer).toOption.map (fun _ => ()) =
      some () := by decide +kernel
  have hreject : (compile ⟨true, .reject⟩ namedLikeContainer).toOption.map (fun _ => ()) =
      none := by decide +kernel
  obtain ⟨m, hm, _⟩ := exists_ok_of_toOption hreplace
  obtain ⟨lexemes, p, ht, hp, hm⟩ := compile_eq_ok_iff.1 hm
  cases hw : p.elaborate ⟨true, .reject⟩ with
  | ok m' =>
    rw [compile_eq_ok_iff.2 ⟨lexemes, p, ht, hp, hw⟩] at hreject
    cases hreject
  | error w =>
    obtain ⟨_, herror, hstart⟩ := reject_refines_replace
    rcases herror p true w hw with h | ⟨d, e, hfirst, rfl, _⟩
    · rw [hm] at h
      cases h
    · exact ⟨lexemes, p, m, d, e, ht, hp, hm, hw, hfirst,
        hstart namedLikeContainer lexemes p ht hp d e hfirst⟩

end ArchScript
