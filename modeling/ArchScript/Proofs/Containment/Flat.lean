/-
  Containers group, and do nothing else.

  `Program.flat` puts the body of every container in the container's place. The walk of the
  flat program is the walk of the program without the acts that open and close containers
  (`acts_flat`), and no other act sees a container: a check that fails says at most that an id
  is a container's instead of nothing's (`Scope.FlatOf.test`). So the two walks go side by
  side (`perform_flat`). They end in models that differ only in where things are, or in
  violations at one place (`elaborate_flat`).
-/
import ArchScript.Proofs.Containment.Model

namespace ArchScript

/-! ## Flat programs -/

mutual

/-- The statement, or the statements of its body. -/
def Statement.flat (span : Span) : Statement → Program
  | .container _ body => flatAll body
  | x => [⟨x, span⟩]

def flatAll : List (Spanned Statement) → Program
  | [] => []
  | ⟨x, span⟩ :: xs => x.flat span ++ flatAll xs

end

/-- The program with every container replaced by its body. -/
def Program.flat (p : Program) : Program := flatAll p

/-- The model without containers, everything else at its top. -/
def SystemModel.flat (m : SystemModel) : SystemModel where
  name := m.name
  actors := m.actors.map fun a => a.withContainer none
  channels := m.channels.map fun c => c.withContainer none
  dataFlows := m.dataFlows.map fun f => f.withContainer none
  scenarios := m.scenarios
  annotations := m.annotations.mapValues fun _ a => a.withContainer none
  containers := .empty

/-- Where there are no containers, a container's id is undefined. -/
def Violation.flat : Violation → Violation
  | containerAsActor ref => undefined ref
  | w => w

/-- The act checks, opens or closes a container. -/
def Act.groups : Act → Bool
  | .check (.unused .container _) => true
  | .effect (.openBody _ _) => true
  | .effect (.closeBody _ _) => true
  | _ => false

/-! ## The walk of a flat program -/

theorem Act.Relates.groups {a : Act} (h : a.Relates) : a.groups = false := by
  cases a with
  | check c =>
    cases c with
    | unused what ref => cases h
    | _ => rfl
  | effect e =>
    cases e with
    | openBody path head => cases h
    | closeBody path head => cases h
    | _ => rfl

theorem groups_acts (x : Statement) : ∀ a ∈ x.acts, a.groups = false := by
  cases x with
  | call d => exact fun a ha => (d.relates_acts a ha).groups
  | flow d => exact fun a ha => (d.relates_acts a ha).groups
  | scenario d => exact fun a ha => (d.relates_acts a ha).groups
  | container head inner => exact fun a ha => (List.not_mem_nil ha).elim
  | _ => exact List.forall_mem_cons.2 ⟨rfl, List.forall_mem_singleton.2 rfl⟩

theorem Statement.flat_of_isFlat {x : Statement} (h : x.IsFlat) (span : Span) :
    x.flat span = [⟨x, span⟩] := by
  cases x with
  | container head inner => exact h.elim
  | _ => rfl

/-- A flat program does what the program does, containers apart. -/
theorem acts_flat (p : Program) (body body' : BodyPath) (i i' : Nat) :
    (visitsOf body' i' p.flat).map Visit.act =
      ((visitsOf body i p).map Visit.act).filter fun a => !a.groups := by
  unfold Program.flat
  induction p using Program.induction generalizing body body' i i' with
  | nil => rfl
  | flat x span xs hx ih =>
    have hkept : x.acts.filter (fun a => !a.groups) = x.acts :=
      List.filter_eq_self.2 fun a ha => by rw [groups_acts x a ha]; rfl
    rw [flatAll, Statement.flat_of_isFlat hx, List.singleton_append, visitsOf_flat hx,
      visitsOf_flat hx, List.map_append, List.map_append, List.filter_append, map_act_map_mk,
      map_act_map_mk, hkept, ih body body' (i + 1) (i' + 1)]
  | container head inner span xs ih₁ ih₂ =>
    rw [flatAll, Statement.flat, visitsOf_append, List.map_append, ih₁ (i :: body) body' 0 i',
      ih₂ body body' (i + 1), visitsOf_container]
    simp [Act.groups, List.filter_append]

/-! ## Scopes side by side -/

/-- The scope `t` has what `s` has, and no containers. -/
structure Scope.FlatOf (t s : Scope) : Prop where
  actors : t.actors = s.actors
  channels : t.channels = s.channels
  dataFlows : t.dataFlows = s.dataFlows
  annotations : t.annotations = s.annotations
  scenarios : t.scenarios = s.scenarios
  containers : t.containers = .empty
  parents : t.parents = .empty

namespace Scope.FlatOf

variable {s t : Scope}

theorem empty : Scope.empty.FlatOf .empty := ⟨rfl, rfl, rfl, rfl, rfl, rfl, rfl⟩

/-- An operand is found in both scopes or in neither. -/
theorem actor (h : t.FlatOf s) (ref : Spanned Ident) :
    Elaboration.actor t ref = (Elaboration.actor s ref).mapError Violation.flat := by
  unfold Elaboration.actor
  rw [h.actors, h.containers]
  cases s.actors.get? ref.value with
  | some a => rfl
  | none => cases s.containers.contains ref.value <;> rfl

/-- A check has the same outcome in both, up to the name of a container. -/
theorem test (h : t.FlatOf s) {c : Check} (hc : (Act.check c).groups = false) :
    c.test .replace t = (c.test .replace s).mapError Violation.flat := by
  cases c with
  | known ref => exact map_eq_mapError (h.actor ref) _
  | active role ref =>
    refine bind_eq_mapError (h.actor ref) fun a => ?_
    cases a.kind.isActive <;> rfl
  | store role ref =>
    refine bind_eq_mapError (h.actor ref) fun a => ?_
    cases a.kind.isStore <;> rfl
  | requested a b step =>
    simp only [Check.test, h.channels]
    split <;> rfl
  | unused what ref => rfl

/-- Nothing is in a container, and it stays so when something moves. -/
theorem erase_parents (h : t.FlatOf s) (m : Member) : t.parents.erase m = .empty := by
  rw [h.parents]
  rfl

theorem updateActor (h : t.FlatOf s) (id : Ident) (f : Actor → Actor) :
    (t.updateActor id f).FlatOf (s.updateActor id f) := by
  unfold Scope.updateActor
  rw [h.actors]
  split
  · exact { h with actors := by rw [setActor, setActor, h.actors] }
  · exact h

theorem registerChannel (h : t.FlatOf s) (c : Channel) :
    (t.registerChannel c).FlatOf (s.registerChannel c) :=
  { h with
    channels := by simp only [Scope.registerChannel, Scope.moveHere, h.channels]
    parents := h.erase_parents _ }

theorem registerActor (h : t.FlatOf s) (a : Actor) (span : Span) :
    (t.registerActor a span).FlatOf (s.registerActor a span) :=
  { h with
    actors := by
      simp only [Scope.registerActor, Scope.noteDefinition, Scope.moveHere, h.actors]
    parents := h.erase_parents _ }

theorem registerAnnotation (h : t.FlatOf s) (a : Annotation) (span : Span) :
    (t.registerAnnotation a span).FlatOf (s.registerAnnotation a span) :=
  { h with
    annotations := by
      simp only [Scope.registerAnnotation, Scope.noteDefinition, Scope.moveHere, h.annotations]
    parents := h.erase_parents _ }

theorem registerDataFlow (h : t.FlatOf s) (f : DataFlow) :
    (t.registerDataFlow f).FlatOf (s.registerDataFlow f) :=
  { h with
    dataFlows := by simp only [Scope.registerDataFlow, Scope.moveHere, h.dataFlows]
    parents := h.erase_parents _ }

/-- An effect on both scopes. -/
theorem apply (h : t.FlatOf s) {e : Effect} (he : (Act.effect e).groups = false) :
    (e.apply t).FlatOf (e.apply s) := by
  cases e with
  | declareActor d => exact h.registerActor _ _
  | setNote target text => exact h.updateActor _ _
  | assign target refs => exact h.updateActor _ _
  | declareChannel c => exact h.registerChannel c
  | useChannel c =>
    simp only [Effect.apply, h.channels]
    split
    · exact h
    · exact h.registerChannel c
  | declareFlow f => exact h.registerDataFlow f
  | useFlow f =>
    simp only [Effect.apply, h.dataFlows]
    split
    · exact h
    · exact h.registerDataFlow f
  | annotate d => exact h.registerAnnotation _ _
  | addScenario x => exact { h with scenarios := congrArg (· ++ [x]) h.scenarios }
  | openBody path head => cases he
  | closeBody path head => cases he

/-- An effect of a container on the one scope does not show in the other. -/
theorem apply_groups (h : t.FlatOf s) {e : Effect} (he : (Act.effect e).groups = true) :
    t.FlatOf (e.apply s) := by
  cases e with
  | openBody path head => exact { h with }
  | closeBody path head => exact { h with }
  | _ => cases he

theorem toModel (h : t.FlatOf s) : t.toModel = s.toModel.flat := by
  have hparent : ∀ m, t.parent? m = none := by
    intro m
    rw [Scope.parent?, h.parents, Table.get?_empty]
  unfold Scope.toModel SystemModel.flat
  simp only [hparent, h.actors, h.channels, h.dataFlows, h.annotations, h.scenarios, h.containers,
    List.map_map, Table.mapValues]
  rfl

end Scope.FlatOf

/-- Without the acts of containers a walk that replaces earlier definitions goes on side by
side with the whole walk, and stops where it stops. -/
theorem perform_flat {s t : Scope} (h : t.FlatOf s) (acts : List Act) :
    match perform .replace acts s with
    | .ok s' => ∃ t', perform .replace (acts.filter fun a => !a.groups) t = .ok t' ∧ t'.FlatOf s'
    | .error w => perform .replace (acts.filter fun a => !a.groups) t = .error w.flat := by
  induction acts generalizing s t with
  | nil => exact ⟨t, rfl, h⟩
  | cons a acts ih =>
    cases hgroups : a.groups with
    | true =>
      rw [List.filter_cons_of_neg (by simp [hgroups])]
      cases a with
      | check c =>
        -- a container may always be defined again
        cases c with
        | unused what ref => exact ih h
        | _ => cases hgroups
      | effect e => exact ih (h.apply_groups hgroups)
    | false =>
      rw [List.filter_cons_of_pos (by simp [hgroups])]
      cases a with
      | check c =>
        simp only [perform, h.test hgroups]
        cases c.test .replace s with
        | error w => rfl
        | ok u => exact ih h
      | effect e => exact ih (h.apply hgroups)

/-! ## Resolved annotations -/

theorem withContainer_mergeProperties (a : Actor) (c : Option Ident) (ps : Properties) :
    SystemModel.mergeProperties (a.withContainer c) ps =
      (SystemModel.mergeProperties a ps).withContainer c := by
  unfold SystemModel.mergeProperties
  generalize ps.entries = entries
  induction entries generalizing a with
  | nil => rfl
  | cons e entries ih => exact ih (a.mergeProperty e.1 e.2)

/-- An actor gets the same properties wherever it and the annotations are. -/
theorem withContainer_resolveActor (annotations : Table Ident Annotation) (a : Actor)
    (c : Option Ident) :
    SystemModel.resolveActor (annotations.mapValues fun _ x => x.withContainer c)
      (a.withContainer c) = (SystemModel.resolveActor annotations a).withContainer c := by
  unfold SystemModel.resolveActor
  rw [show (a.withContainer c).annotations = a.annotations from rfl]
  generalize a.annotations = refs
  induction refs generalizing a with
  | nil => rfl
  | cons ref refs ih =>
    rw [List.foldl_cons, List.foldl_cons, Table.get?_mapValues]
    cases annotations.get? ref with
    | none => exact ih a
    | some x =>
      rw [← ih]
      exact congrArg (List.foldl _ · refs) (withContainer_mergeProperties a c x.properties)

theorem SystemModel.resolveAnnotations_flat (m : SystemModel) :
    m.flat.resolveAnnotations = m.resolveAnnotations.flat := by
  unfold resolveAnnotations flat
  simp only [List.map_map]
  congr 1
  exact List.map_congr_left fun a _ => withContainer_resolveActor m.annotations a none

/-! ## Programs -/

/-- Elaborating a flat program, told from elaborating the program. -/
theorem Program.elaborate_flat_eq (p : Program) (resolve : Bool) :
    p.flat.elaborate ⟨resolve, .replace⟩ =
      match p.elaborate ⟨resolve, .replace⟩ with
      | .ok m => .ok m.flat
      | .error w => .error w.flat := by
  have hwalk := perform_flat Scope.FlatOf.empty (p.visits.map Visit.act)
  rw [Program.elaborate_eq_perform, Program.elaborate_eq_perform, Program.visits,
    acts_flat p [] [] 0 0]
  unfold Program.visits at hwalk ⊢
  cases hrun : perform .replace ((visitsOf [] 0 p).map Visit.act) .empty with
  | error w =>
    rw [hrun] at hwalk
    rw [hwalk]
    rfl
  | ok s =>
    rw [hrun] at hwalk
    obtain ⟨t, ht, hflat⟩ := hwalk
    rw [ht]
    simp only [Except.map, hflat.toModel, SystemModel.resolveAnnotations_flat]
    cases resolve <;> rfl

theorem Violation.span_flat (w : Violation) : w.flat.span = w.span := by cases w <;> rfl

theorem Violation.code_flat (w : Violation) :
    w.flat.code = if w.code = .notAnActor then .undefinedIdentifier else w.code := by
  cases w <;> rfl

/-- When earlier definitions are replaced, a program is elaborated exactly when its flat form
is. The two models have the same actors, channels, data flows and annotations in the same
order with the same fields, but that nothing of the flat one is in a container, and they have
the same scenarios. The two violations are at one place and of one code, but that a container
where an actor is needed is undefined in the flat form. -/
theorem elaborate_flat (p : Program) (resolve : Bool) :
    ((∃ m, p.elaborate ⟨resolve, .replace⟩ = .ok m) ↔
      ∃ m, p.flat.elaborate ⟨resolve, .replace⟩ = .ok m) ∧
    (∀ m m', p.elaborate ⟨resolve, .replace⟩ = .ok m →
      p.flat.elaborate ⟨resolve, .replace⟩ = .ok m' →
      m'.name = m.name ∧ m'.scenarios = m.scenarios ∧ m'.containers = .empty ∧
      m'.actors = m.actors.map (fun a => { a with container := none }) ∧
      m'.channels = m.channels.map (fun c => { c with container := none }) ∧
      m'.dataFlows = m.dataFlows.map (fun f => { f with container := none }) ∧
      m'.annotations.entries =
        m.annotations.entries.map fun e => (e.1, { e.2 with container := none })) ∧
    ∀ w w', p.elaborate ⟨resolve, .replace⟩ = .error w →
      p.flat.elaborate ⟨resolve, .replace⟩ = .error w' →
      w'.diagnostic.primarySpan? = w.diagnostic.primarySpan? ∧
      w'.diagnostic.code = if w.diagnostic.code = some .notAnActor then some .undefinedIdentifier
        else w.diagnostic.code := by
  rw [Program.elaborate_flat_eq]
  refine ⟨?_, ?_, ?_⟩
  · cases p.elaborate ⟨resolve, .replace⟩ <;> simp
  · intro m m' h h'
    rw [h] at h'
    cases h'
    exact ⟨rfl, rfl, rfl, rfl, rfl, rfl, rfl⟩
  · intro w w' h h'
    rw [h] at h'
    cases h'
    refine ⟨congrArg some w.span_flat, (congrArg some w.code_flat).trans ?_⟩
    simp only [Violation.diagnostic, Option.some.injEq]
    split <;> rfl

/-- Nested containers with a channel between them, and an annotation in a third. -/
def nestedGroups : Program :=
  [unplaced (.container ⟨unplaced "C", unplaced "c"⟩
      [unplaced (.actor ⟨unplaced .agent, unplaced "A", unplaced "a", [unplaced "X"]⟩),
        unplaced (.container ⟨unplaced "D", unplaced "d"⟩
          [unplaced (.actor ⟨unplaced .user, unplaced "B", unplaced "b", []⟩),
            unplaced (.call ⟨.async, unplaced "a", unplaced "b", none⟩)])]),
    unplaced (.container ⟨unplaced "E", unplaced "e"⟩
      [unplaced (Statement.annotation ⟨unplaced "X", [⟨unplaced .color, unplaced "red"⟩]⟩)])]

/-- The same, and then a note on a container. -/
def noteOnGroup : Program :=
  nestedGroups ++ [unplaced (.note ⟨⟨"c", .ofSize 9 1⟩, unplaced "x"⟩)]

/-- Without its groups the program has the same actors with the same colours; the note has
another code in the same place. -/
theorem elaborate_flat_nestedGroups :
    (∃ m m', nestedGroups.elaborate .default = .ok m ∧
      nestedGroups.flat.elaborate .default = .ok m' ∧
      m.actors.map (fun a => (a.property? .color, a.container)) =
        [(some "red", some "c"), (none, some "d")] ∧
      m'.actors = m.actors.map fun a => { a with container := none }) ∧
    ∃ w w', noteOnGroup.elaborate .default = .error w ∧
      noteOnGroup.flat.elaborate .default = .error w' ∧
      w.diagnostic.code = some .notAnActor ∧ w'.diagnostic.code = some .undefinedIdentifier ∧
      w'.diagnostic.primarySpan? = w.diagnostic.primarySpan? := by
  constructor
  · have hm : (nestedGroups.elaborate .default).toOption.map (fun m =>
        m.actors.map fun a => (a.property? .color, a.container)) =
          some [(some "red", some "c"), (none, some "d")] := by decide +kernel
    obtain ⟨m, h, hactors⟩ := exists_ok_of_toOption hm
    obtain ⟨hiff, hmodels, _⟩ := elaborate_flat nestedGroups true
    obtain ⟨m', h'⟩ := hiff.1 ⟨m, h⟩
    exact ⟨m, m', h, h', hactors, (hmodels m m' h h').2.2.2.1⟩
  · have hw : noteOnGroup.elaborate .default = .error (.containerAsActor ⟨"c", .ofSize 9 1⟩) := rfl
    have hw' : noteOnGroup.flat.elaborate .default = .error (.undefined ⟨"c", .ofSize 9 1⟩) := rfl
    obtain ⟨hspan, hcode⟩ := (elaborate_flat noteOnGroup true).2.2 _ _ hw hw'
    exact ⟨_, _, hw, hw', rfl, hcode, hspan⟩

end ArchScript
