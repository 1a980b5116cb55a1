/-
  Annotations may be defined anywhere.

  What a scope has of an annotation is read by the check in front of its definitions and by no
  other act. So a walk that does not define the annotation goes the same way without it
  (`perform_without`). A definition at the top of a program puts the annotation into two tables
  and changes nothing else (`Scope.Lacks.without_registerAnnotation`). So wherever it stands, the
  walk ends in the same violation, or in scopes that have the same but for the place of the
  annotation in the two tables (`elaborateAll_define`). Models look annotations up and do not ask
  for their places (`Program.elaborate_anywhere`).
-/
import ArchScript.Proofs.Containment.Model
import ArchScript.Proofs.Declarations.Last
import ArchScript.Proofs.Equality

namespace ArchScript

open Elaboration

/-! ## Tables without a key -/

namespace Table

variable {κ α : Type} [DecidableEq κ]

theorem filter_insertEntry_of_ne {j k : κ} (h : j ≠ k) (v : α) (l : List (κ × α)) :
    (insertEntry j v l).filter (fun e => !decide (e.1 = k)) =
      insertEntry j v (l.filter fun e => !decide (e.1 = k)) := by
  induction l with
  | nil => simp [insertEntry, h]
  | cons e l ih =>
    by_cases hk : e.1 = k
    · have hj : ¬ k = j := fun e => h e.symm
      simp [insertEntry, hj, hk, ih]
    · by_cases hj : e.1 = j
      · simp [insertEntry, hj, h]
      · simp [insertEntry, hj, hk, ih]

theorem filter_insertEntry_self (k : κ) (v : α) (l : List (κ × α)) :
    (insertEntry k v l).filter (fun e => !decide (e.1 = k)) =
      l.filter fun e => !decide (e.1 = k) := by
  induction l with
  | nil => simp [insertEntry]
  | cons e l ih =>
    by_cases hk : e.1 = k
    · simp [insertEntry, hk]
    · simp [insertEntry, hk, ih]

theorem erase_insert_of_ne {j k : κ} (h : j ≠ k) (t : Table κ α) (v : α) :
    (t.insert j v).erase k = (t.erase k).insert j v :=
  Table.ext (filter_insertEntry_of_ne h v t.entries)

theorem erase_insert_self (t : Table κ α) (k : κ) (v : α) : (t.insert k v).erase k = t.erase k :=
  Table.ext (filter_insertEntry_self k v t.entries)

theorem erase_insertIfNew_of_ne {j k : κ} (h : j ≠ k) (t : Table κ α) (v : α) :
    (t.insertIfNew j v).erase k = (t.erase k).insertIfNew j v := by
  have hcontains : (t.erase k).contains j = t.contains j := by
    rw [contains, contains, get?_erase, if_neg h]
  unfold insertIfNew
  rw [hcontains]
  split
  · rfl
  · exact erase_insert_of_ne h t v

theorem erase_insertIfNew_self (t : Table κ α) (k : κ) (v : α) :
    (t.insertIfNew k v).erase k = t.erase k := by
  unfold insertIfNew
  split
  · rfl
  · exact t.erase_insert_self k v

theorem erase_of_get?_eq_none {t : Table κ α} {k : κ} (h : t.get? k = none) : t.erase k = t := by
  refine Table.ext (List.filter_eq_self.2 fun e he => ?_)
  have hne : e.1 ≠ k := by
    rintro rfl
    rw [get?_eq_some_iff.2 he] at h
    cases h
  simpa using hne

end Table

/-! ## Acts that are not about an annotation -/

/-- The annotation that an act checks or defines. -/
def Act.annotationId? : Act → Option Ident
  | .check (.unused DefinitionKind.annotation ref) => some ref.value
  | .effect (.annotate d) => some d.id.value
  | _ => none

/-- The scope without what it has of an annotation. -/
def Scope.without (id : Ident) (s : Scope) : Scope :=
  { s with
    annotations := s.annotations.erase id
    firstDefined := s.firstDefined.erase ⟨MemberKind.annotation, id⟩ }

section

variable {id : Ident}

theorem Scope.Keyed.without {s : Scope} (h : s.Keyed) : (s.without id).Keyed :=
  { h with
    annotations := fun k v hv => h.annotations k v (by
      simp only [Scope.without, Table.get?_erase] at hv
      split at hv
      · cases hv
      · exact hv) }

theorem Scope.updateActor_without (s : Scope) (target : Ident) (f : Actor → Actor) :
    (s.without id).updateActor target f = (s.updateActor target f).without id := by
  have hactors : (s.without id).actors = s.actors := rfl
  unfold updateActor
  rw [hactors]
  cases s.actors.get? target <;> rfl

/-- No other check looks at the annotation. -/
theorem Check.test_without {c : Check} (h : (Act.check c).annotationId? ≠ some id)
    (policy : Redeclaration) (s : Scope) : c.test policy (s.without id) = c.test policy s := by
  cases c with
  | unused what ref =>
    have hlookup : ∀ m ∈ what.rivals ref.value,
        (s.without id).firstDefined.get? m = s.firstDefined.get? m := fun m hm => by
      refine (Table.get?_erase _ _ m).trans (if_neg ?_)
      rintro rfl
      cases what with
      | «annotation» =>
        refine h ?_
        rw [Act.annotationId?, (Member.mk.inj (List.mem_singleton.1 hm)).2]
      | _ => simp [DefinitionKind.rivals] at hm
    cases policy with
    | replace => rfl
    | reject =>
      have hfirst : (what.rivals ref.value).findSome? (s.without id).firstDefined.get? =
          (what.rivals ref.value).findSome? s.firstDefined.get? := by
        rw [← List.head?_filterMap, ← List.head?_filterMap, List.filterMap_congr hlookup]
      simp only [Check.test, checkNew, hfirst]
  | _ => rfl

/-- No other effect changes what a scope has of the annotation, or looks at it. -/
theorem Effect.apply_without {e : Effect} (h : (Act.effect e).annotationId? ≠ some id) (s : Scope) :
    e.apply (s.without id) = (e.apply s).without id := by
  cases e with
  | declareActor d =>
    simp [apply, Scope.registerActor, Scope.noteDefinition, Scope.moveHere, Scope.without,
      Table.erase_insertIfNew_of_ne]
  | setNote target text => exact s.updateActor_without target _
  | assign target refs => exact s.updateActor_without target _
  | useChannel c =>
    exact (apply_ite (Scope.without id) (s.channels.contains c.id) s (s.registerChannel c)).symm
  | useFlow f =>
    exact (apply_ite (Scope.without id) (s.dataFlows.contains f.id) s (s.registerDataFlow f)).symm
  | annotate d =>
    have hid : d.toAnnotation.id ≠ id := fun e => h (congrArg some e)
    simp [apply, Scope.registerAnnotation, Scope.noteDefinition, Scope.moveHere, Scope.without,
      Table.erase_insertIfNew_of_ne, Table.erase_insert_of_ne, hid]
  | openBody path head =>
    simp [apply, Scope.openBody, Scope.noteDefinition, Scope.without,
      Table.erase_insertIfNew_of_ne]
  | _ => rfl

/-- Acts that are not about an annotation do without it what they do with it. -/
theorem perform_without {policy : Redeclaration} {acts : List Act}
    (h : ∀ a ∈ acts, a.annotationId? ≠ some id) (s : Scope) :
    perform policy acts (s.without id) = (perform policy acts s).map (Scope.without id) := by
  induction acts generalizing s with
  | nil => rfl
  | cons a acts ih =>
    obtain ⟨ha, hacts⟩ := List.forall_mem_cons.1 h
    cases a with
    | check c =>
      rw [perform, perform, Check.test_without ha]
      cases c.test policy s with
      | error w => rfl
      | ok u => exact ih hacts s
    | effect e =>
      rw [perform, perform, Effect.apply_without ha]
      exact ih hacts (e.apply s)

end

/-! ## Programs that do not define an annotation -/

theorem Act.Relates.annotationId? {a : Act} (h : a.Relates) : a.annotationId? = none := by
  cases a with
  | check c =>
    cases c with
    | unused what ref => cases h
    | _ => rfl
  | effect e =>
    cases e with
    | annotate d => cases h
    | _ => rfl

theorem annotationId?_ofContainer {a : Act} (ha : a.ofContainer = true) :
    a.annotationId? = none := by
  cases a with
  | check c =>
    cases c with
    | unused what ref =>
      cases what with
      | container => rfl
      | _ => cases ha
    | _ => rfl
  | effect e =>
    cases e with
    | annotate d => cases ha
    | _ => rfl

/-- A definition is about its annotation twice, when it is checked and when it is registered. -/
theorem annotationId?_acts (x : Statement) :
    x.acts.filterMap Act.annotationId? =
      x.annotation?.toList.flatMap fun d => [d.id.value, d.id.value] := by
  cases x with
  | call d => exact List.filterMap_eq_nil_iff.2 fun a ha => (d.relates_acts a ha).annotationId?
  | flow d => exact List.filterMap_eq_nil_iff.2 fun a ha => (d.relates_acts a ha).annotationId?
  | scenario d => exact List.filterMap_eq_nil_iff.2 fun a ha => (d.relates_acts a ha).annotationId?
  | _ => rfl

/-- The ids of the annotations that a program defines, in source order. -/
def Program.annotationIds (p : Program) : List Ident := p.annotationDefs.map fun d => d.id.value

/-- A program is about the annotations that it defines. -/
theorem Program.mem_annotationIds {p : Program} {a : Act} (ha : a ∈ p.visits.map Visit.act)
    {id : Ident} (hid : a.annotationId? = some id) : id ∈ p.annotationIds := by
  have hmem := List.mem_filterMap.2 ⟨a, ha, hid⟩
  rw [filterMap_visits fun _ => annotationId?_ofContainer] at hmem
  obtain ⟨x, hx, hid⟩ := List.mem_flatMap.1 hmem
  rw [annotationId?_acts] at hid
  obtain ⟨d, hd, hid⟩ := List.mem_flatMap.1 hid
  have hvalue : id = d.id.value := by simpa using hid
  rw [hvalue]
  exact List.mem_map_of_mem (List.mem_filterMap.2 ⟨x, hx, Option.mem_toList.1 hd⟩)

theorem Program.annotationDefs_define (before after : Program) (d : AnnotationDef) (span : Span) :
    Program.annotationDefs (before ++ ⟨Statement.annotation d, span⟩ :: after) =
      before.annotationDefs ++ d :: after.annotationDefs := by
  rw [annotationDefs, leavesOf_append, List.filterMap_append]
  rfl

theorem Program.annotationIds_append (p q : Program) :
    Program.annotationIds (p ++ q) = p.annotationIds ++ q.annotationIds := by
  rw [annotationIds, annotationDefs, leavesOf_append, List.filterMap_append, List.map_append]
  rfl

/-- A program that does not define an annotation does without it what it does with it. -/
theorem elaborateAll_without (policy : Redeclaration) {p : Program} {id : Ident}
    (h : id ∉ p.annotationIds) {s : Scope} (hs : s.Keyed) :
    elaborateAll policy p (s.without id) = (elaborateAll policy p s).map (Scope.without id) := by
  rw [elaborateAll_eq_perform policy p _ hs.without [] 0,
    elaborateAll_eq_perform policy p s hs [] 0]
  exact perform_without (fun a ha hid => h (Program.mem_annotationIds ha hid)) s

/-- The annotation was not defined, no container holds it, and no body is open. -/
structure Scope.Lacks (s : Scope) (id : Ident) : Prop where
  firstDefined : s.firstDefined.get? ⟨MemberKind.annotation, id⟩ = none
  parent : s.parent? ⟨MemberKind.annotation, id⟩ = none
  openBodies : s.openBodies = []

/-- What a program does not define is lacking at its end. -/
theorem lacks_of_elaborateAll {policy : Redeclaration} {p : Program} {id : Ident}
    (h : id ∉ p.annotationIds) {s : Scope} (hs : elaborateAll policy p .empty = .ok s) :
    s.Lacks id := by
  have hwithout := elaborateAll_without policy h Scope.keyed_empty
  -- leaving the annotation out changes the scope neither at the start nor, so, at the end
  rw [show Scope.empty.without id = .empty from rfl, hs] at hwithout
  have hsame : s = s.without id := Except.ok.inj hwithout
  have hunknown : id ∉ s.annotations.keys := by
    rw [hsame, Table.mem_keys_iff]
    rintro ⟨a, ha⟩
    cases ha.symm.trans ((Table.get?_erase _ _ _).trans (if_pos rfl))
  rw [elaborateAll_eq_perform policy p .empty Scope.keyed_empty [] 0] at hs
  have hrecords := records_program hs
  refine ⟨?_, ?_, hrecords.places.bodies⟩
  · rw [hsame]
    exact (Table.get?_erase _ _ _).trans (if_pos rfl)
  · exact Option.eq_none_iff_forall_ne_some.2 fun c hc =>
      hunknown (hrecords.mem_ids_of_parent? hc)

/-! ## Moving a definition -/

namespace Scope.Lacks

variable {s : Scope} {d : AnnotationDef}

/-- The definition of an annotation that is lacking is accepted. -/
theorem elaborateAnnotationDef (h : s.Lacks d.id.value) (policy : Redeclaration) :
    Elaboration.elaborateAnnotationDef policy d s =
      .ok (s.registerAnnotation d.toAnnotation d.id.span) := by
  cases policy with
  | replace => rfl
  | reject =>
    simp only [Elaboration.elaborateAnnotationDef, checkNew, List.findSome?, h.firstDefined]
    rfl

/-- It changes nothing but what the scope has of the annotation. -/
theorem without_registerAnnotation (h : s.Lacks d.id.value) (span : Span) :
    (s.registerAnnotation d.toAnnotation span).without d.id.value = s.without d.id.value := by
  have hparents : s.parents.erase ⟨MemberKind.annotation, d.id.value⟩ = s.parents :=
    Table.erase_of_get?_eq_none h.parent
  have hid : d.toAnnotation.id = d.id.value := rfl
  simp [noteDefinition, registerAnnotation, moveHere, without, moveToFront, hid, h.openBodies,
    hparents, Table.erase_insert_self, Table.erase_insertIfNew_self]

end Scope.Lacks

theorem elaborateAll_append (policy : Redeclaration) (xs ys : List (Spanned Statement))
    (s : Scope) :
    elaborateAll policy (xs ++ ys) s = elaborateAll policy xs s >>= elaborateAll policy ys := by
  induction xs generalizing s with
  | nil => rfl
  | cons x xs ih => simp only [List.cons_append, elaborateAll, ih, bind_assoc]

/-- A definition at the top of a program that defines the annotation nowhere else adds the
annotation and nothing else, wherever it stands. -/
theorem elaborateAll_define (policy : Redeclaration) {before after : Program} {d : AnnotationDef}
    (span : Span) (hbefore : d.id.value ∉ before.annotationIds)
    (hafter : d.id.value ∉ after.annotationIds) :
    (elaborateAll policy (before ++ ⟨Statement.annotation d, span⟩ :: after) .empty).map
        (Scope.without d.id.value) =
      (elaborateAll policy (before ++ after) .empty).map (Scope.without d.id.value) := by
  rw [elaborateAll_append, elaborateAll_append]
  cases hs : elaborateAll policy before .empty with
  | error w => rfl
  | ok s =>
    have hlacks := lacks_of_elaborateAll hbefore hs
    have hkeyed : s.Keyed := by
      rw [elaborateAll_eq_perform policy before .empty Scope.keyed_empty [] 0] at hs
      exact Scope.keyed_empty.perform hs
    have hdefine : elaborate policy (Statement.annotation d) s =
        .ok (s.registerAnnotation d.toAnnotation d.id.span) := hlacks.elaborateAnnotationDef policy
    have hstep : elaborateAll policy (⟨Statement.annotation d, span⟩ :: after) s =
        elaborateAll policy after (s.registerAnnotation d.toAnnotation d.id.span) := by
      rw [elaborateAll, hdefine]
      rfl
    change (elaborateAll policy (⟨Statement.annotation d, span⟩ :: after) s).map _ =
      (elaborateAll policy after s).map _
    rw [hstep, ← elaborateAll_without policy hafter (hkeyed.registerAnnotation _ _),
      hlacks.without_registerAnnotation, elaborateAll_without policy hafter hkeyed]

/-- At the end of a program that defines an annotation once, the annotation is that definition. -/
theorem annotations_of_elaborateAll {policy : Redeclaration} {before after : Program}
    {d : AnnotationDef} {span : Span} (hafter : d.id.value ∉ after.annotationIds) {t : Scope}
    (ht : elaborateAll policy (before ++ ⟨Statement.annotation d, span⟩ :: after) .empty = .ok t) :
    t.annotations.get? d.id.value = some d.toAnnotation := by
  rw [elaborateAll_eq_perform policy _ .empty Scope.keyed_empty [] 0] at ht
  have hnone : after.annotationDefs.filter (fun e => e.id.value = d.id.value) = [] :=
    List.filter_eq_nil_iff.2 fun e he hid => hafter (by
      rw [← of_decide_eq_true hid]
      exact List.mem_map_of_mem he)
  have hlast : (Program.annotationDefs (before ++ ⟨Statement.annotation d, span⟩ :: after)).filter
      (fun e => e.id.value = d.id.value) =
        before.annotationDefs.filter (fun e => e.id.value = d.id.value) ++ [d] := by
    rw [Program.annotationDefs_define, List.filter_append, List.filter_cons, hnone,
      if_pos (decide_eq_true rfl)]
  rw [Program.annotations_perform ht, Table.get?_foldl_insert_last, hlast, List.getLast?_concat]
  rfl

/-- Scopes that have the same but for the place of an annotation make the same model but for
the order of annotations. -/
theorem Scope.toModel_reordered {s t : Scope} {id : Ident} (h : s.without id = t.without id)
    (hid : t.annotations.get? id = s.annotations.get? id) : s.toModel.Reordered t.toModel := by
  obtain ⟨_, _, _, annotations, _, _, _, _, _⟩ := s
  obtain ⟨_, _, _, annotations', _, _, _, _, _⟩ := t
  simp only [without, mk.injEq] at h
  obtain ⟨rfl, rfl, rfl, hannotations, rfl, rfl, rfl, rfl, -⟩ := h
  have hlookup : ∀ k, annotations'.get? k = annotations.get? k := fun k => by
    by_cases hk : k = id
    · rw [hk]
      exact hid
    · have herase := congrArg (Table.get? · k) hannotations
      simp only [Table.get?_erase, if_neg hk] at herase
      exact herase.symm
  exact ⟨fun k => by simp only [toModel, parent?, Table.get?_mapValues, hlookup], rfl⟩

/-- Two results are the same violation, or equal models that differ in no more than the order of
their annotations. -/
inductive SameOutcome : Except Violation SystemModel → Except Violation SystemModel → Prop
  | violation (w : Violation) : SameOutcome (.error w) (.error w)
  | model {m n : SystemModel} (heq : (m == n) = true) (h : m.Reordered n) :
    SameOutcome (.ok m) (.ok n)

/-- Walks that are the same as seen by `f` have the same outcome. -/
theorem SameOutcome.of_map {f : Scope → Scope} {g : Scope → SystemModel}
    {r r' : Except Violation Scope} (h : r.map f = r'.map f)
    (hg : ∀ s t, r = .ok s → r' = .ok t → f s = f t → (g s).Reordered (g t)) :
    SameOutcome (r.map g) (r'.map g) := by
  cases r with
  | error w =>
    cases r' with
    | error w' =>
      cases h
      exact .violation w
    | ok t => cases h
  | ok s =>
    cases r' with
    | error w' => cases h
    | ok t =>
      have hreordered := hg s t rfl rfl (Except.ok.inj h)
      exact .model hreordered.beq hreordered

/-- A definition at the top of a program may stand anywhere between the other statements there,
if the annotation is defined once: the result is the same. -/
theorem Program.elaborate_anywhere {before after before' after' : Program} {d : AnnotationDef}
    {span : Span} (hrest : before' ++ after' = before ++ after)
    (honce : (Program.annotationIds
      (before ++ ⟨Statement.annotation d, span⟩ :: after)).count d.id.value = 1)
    (options : ElaborationOptions) :
    SameOutcome (Program.elaborate options (before ++ ⟨Statement.annotation d, span⟩ :: after))
      (Program.elaborate options (before' ++ ⟨Statement.annotation d, span⟩ :: after')) := by
  have hother : d.id.value ∉ Program.annotationIds (before ++ after) := by
    rw [annotationIds, annotationDefs_define, List.map_append, List.map_cons, List.count_append,
      List.count_cons_self] at honce
    rw [annotationIds_append, ← List.count_eq_zero, List.count_append, annotationIds,
      annotationIds]
    omega
  have hother' : d.id.value ∉ Program.annotationIds (before' ++ after') := hrest ▸ hother
  rw [annotationIds_append, List.mem_append, not_or] at hother hother'
  -- both walks are that of the other statements, the annotation apart
  have hwalk := elaborateAll_define options.redeclaration span hother.1 hother.2
  have hwalk' := elaborateAll_define options.redeclaration span hother'.1 hother'.2
  rw [hrest, ← hwalk] at hwalk'
  refine SameOutcome.of_map hwalk'.symm fun s t hs ht hsame => ?_
  have hreordered : s.toModel.Reordered t.toModel :=
    Scope.toModel_reordered hsame ((annotations_of_elaborateAll hother'.2 ht).trans
      (annotations_of_elaborateAll hother.2 hs).symm)
  cases options.resolveAnnotations with
  | false => exact hreordered
  | true => exact hreordered.resolveAnnotations

/-- A red annotation. -/
def redDef : AnnotationDef := ⟨unplaced "red", [⟨unplaced .color, unplaced "red"⟩]⟩

/-- A container with an annotation and an actor, which refers to an annotation from outside too. -/
def redInGroup : Program :=
  [unplaced (.container ⟨unplaced "C", unplaced "c"⟩
      [unplaced (Statement.annotation ⟨unplaced "blue", [⟨unplaced .color, unplaced "blue"⟩]⟩),
        unplaced (.actor ⟨unplaced .agent, unplaced "A", unplaced "a",
          [unplaced "red", unplaced "blue"]⟩)])]

/-- A channel to nothing behind the container. -/
def callToNothing : Program :=
  redInGroup ++ [unplaced (.call ⟨.async, unplaced "a", unplaced "b", none⟩)]

/-- The actor is red, whether the annotation comes first or last, and a channel to nothing is
found on both sides of it. -/
theorem Program.elaborate_anywhere_redInGroup :
    (∃ m n,
      Program.elaborate .default ([] ++ unplaced (Statement.annotation redDef) :: redInGroup) =
        .ok m ∧
      Program.elaborate .default (redInGroup ++ unplaced (Statement.annotation redDef) :: []) =
        .ok n ∧
      m.annotations.keys = ["red", "blue"] ∧ n.annotations.keys = ["blue", "red"] ∧
      n.actors.map (·.property? .color) = [some "red"] ∧ (m == n) = true) ∧
    SameOutcome (.error (.undefined (unplaced "b")))
      (Program.elaborate ⟨true, .reject⟩
        (callToNothing ++ unplaced (Statement.annotation redDef) :: [])) := by
  constructor
  · obtain ⟨m, hm, hkeys⟩ := exists_ok_of_toOption
      (r := Program.elaborate .default
        ([] ++ unplaced (Statement.annotation redDef) :: redInGroup))
      (f := fun m => m.annotations.keys) (b := ["red", "blue"]) (by decide +kernel)
    obtain ⟨n, hn, hlast⟩ := exists_ok_of_toOption
      (r := Program.elaborate .default
        (redInGroup ++ unplaced (Statement.annotation redDef) :: []))
      (f := fun n => (n.annotations.keys, n.actors.map (·.property? .color)))
      (b := (["blue", "red"], [some "red"])) (by decide +kernel)
    have hsame : SameOutcome
        (Program.elaborate .default
          ([] ++ unplaced (Statement.annotation redDef) :: redInGroup))
        (Program.elaborate .default
          (redInGroup ++ unplaced (Statement.annotation redDef) :: [])) :=
      Program.elaborate_anywhere (List.append_nil redInGroup) (by decide +kernel) .default
    have hequal : (m == n) = true := by
      rw [hm, hn] at hsame
      cases hsame with
      | model heq h => exact heq
    obtain ⟨hkeys', hcolor⟩ := Prod.mk.inj hlast
    exact ⟨m, n, hm, hn, hkeys, hkeys', hcolor, hequal⟩
  · have hfail : Program.elaborate ⟨true, .reject⟩
        ([] ++ unplaced (Statement.annotation redDef) :: callToNothing) =
          .error (.undefined (unplaced "b")) := rfl
    have hrest : callToNothing ++ [] = [] ++ callToNothing := List.append_nil callToNothing
    rw [← hfail]
    exact Program.elaborate_anywhere hrest (by decide +kernel) ⟨true, .reject⟩

end ArchScript
