/-
  The last declaration counts.

  A statement says something of an actor when it declares it, notes a text for it or assigns
  annotations to it: a `Remark`. The actors at the end of a walk are what is left of the
  remarks of a program in source order. An actor is what its last declaration and the remarks
  after that one make of it; the remarks before leave nothing behind but its place
  (`exists_lastDeclared`). An annotation is what its last definition says of it.
-/
import ArchScript.Proofs.Compile
import ArchScript.Proofs.Relationships.Statements

namespace ArchScript

/-! ## Tables that are filled from lists -/

namespace Table

variable {κ α β : Type} [DecidableEq κ]

/-- The keys stand in the order of their first elements. -/
theorem keys_foldl_insert (key : β → κ) (value : β → α) (xs : List β) :
    (xs.foldl (fun t x => t.insert (key x) (value x)) empty).keys = (xs.map key).eraseDups := by
  induction xs using List.reverseRecOn with
  | nil => rfl
  | append_singleton xs x ih =>
    rw [List.foldl_append, List.foldl_cons, List.foldl_nil, keys_insert, ih, List.map_append,
      List.map_singleton, eraseDups_concat]
    simp only [List.mem_eraseDups]

/-- A key holds the value of its last element. -/
theorem get?_foldl_insert_last (key : β → κ) (value : β → α) (xs : List β) (k : κ) :
    (xs.foldl (fun t x => t.insert (key x) (value x)) empty).get? k =
      (xs.filter fun x => key x = k).getLast?.map value := by
  induction xs using List.reverseRecOn with
  | nil => rfl
  | append_singleton xs x ih =>
    rw [List.foldl_append, List.foldl_cons, List.foldl_nil, get?_insert, ih, List.filter_append]
    by_cases hk : key x = k <;> simp [hk]

/-- Changes the value that stands under a key; the result stands under its own. -/
def revise (id : α → κ) (t : Table κ α) (k : κ) (f : α → α) : Table κ α :=
  match t.get? k with
  | some v => t.insert (id (f v)) (f v)
  | none => t

section Revise

variable {id : α → κ} {t : Table κ α} {f : α → α}

theorem Keyed.revise (h : Keyed id t) (k : κ) (f : α → α) : Keyed id (t.revise id k f) := by
  unfold Table.revise
  split
  · exact h.insert _
  · exact h

theorem Keyed.get?_revise (h : Keyed id t) (hf : ∀ v, id (f v) = id v) (k j : κ) :
    (t.revise id k f).get? j = if k = j then (t.get? j).map f else t.get? j := by
  unfold Table.revise
  cases hv : t.get? k with
  | none =>
    by_cases hj : k = j
    · rw [← hj, if_pos rfl, hv]
      rfl
    · rw [if_neg hj]
  | some v =>
    have hid : id (f v) = k := (hf v).trans (h k v hv)
    simp only [hid, get?_insert]
    by_cases hj : k = j
    · rw [if_pos hj, if_pos hj, ← hj, hv]
      rfl
    · rw [if_neg hj, if_neg hj]

theorem Keyed.keys_revise (h : Keyed id t) (hf : ∀ v, id (f v) = id v) (k : κ) :
    (t.revise id k f).keys = t.keys := by
  unfold Table.revise
  split
  · next v hv =>
    have hmem : id (f v) ∈ t.keys := by
      rw [hf v, h k v hv]
      exact mem_keys_iff.2 ⟨v, hv⟩
    rw [keys_insert, if_pos hmem]
  · rfl

end Revise

end Table

/-! ## Remarks on actors -/

/-- What a statement says of an actor. -/
inductive Remark where
  | declares (d : ActorDecl)
  | notes (target : Ident) (text : String)
  | assigns (target : Ident) (refs : List Ident)

namespace Remark

/-- The declaration that a remark is. -/
def declared? : Remark → Option ActorDecl
  | declares d => some d
  | _ => none

/-- The text that a remark notes for an actor. -/
def noteOn? (id : Ident) : Remark → Option String
  | notes target text => if target = id then some text else none
  | _ => none

/-- The annotations that a remark assigns to an actor. -/
def refsOn (id : Ident) : Remark → List Ident
  | assigns target refs => if target = id then refs else []
  | _ => []

/-- What a remark does to the actors. -/
def record (t : Table Ident Actor) : Remark → Table Ident Actor
  | declares d => t.insert d.id.value d.toActor
  | notes target text => t.revise Actor.id target fun a => a.withNote text
  | assigns target refs => t.revise Actor.id target fun a => a.withAnnotations refs

theorem keyed_record {t : Table Ident Actor} (h : t.Keyed Actor.id) (r : Remark) :
    (r.record t).Keyed Actor.id := by
  cases r with
  | declares d => exact h.insert d.toActor
  | notes target text => exact h.revise _ _
  | assigns target refs => exact h.revise _ _

theorem keyed_foldl_record (rs : List Remark) : (rs.foldl record .empty).Keyed Actor.id := by
  induction rs using List.reverseRecOn with
  | nil => exact Table.keyed_empty _
  | append_singleton rs r ih =>
    rw [List.foldl_append]
    exact keyed_record ih r

theorem keys_record {t : Table Ident Actor} (h : t.Keyed Actor.id) (r : Remark) :
    (r.record t).keys = match r.declared? with
      | some d => if d.id.value ∈ t.keys then t.keys else t.keys ++ [d.id.value]
      | none => t.keys := by
  cases r with
  | declares d => exact Table.keys_insert t d.id.value d.toActor
  | notes target text => exact h.keys_revise (f := fun a => a.withNote text) (fun _ => rfl) target
  | assigns target refs =>
    exact h.keys_revise (f := fun a => a.withAnnotations refs) (fun _ => rfl) target

/-- The ids of the actors that are declared, in the order of their first declarations. -/
theorem keys_foldl_record (rs : List Remark) :
    (rs.foldl record .empty).keys =
      ((rs.filterMap declared?).map fun d => d.id.value).eraseDups := by
  induction rs using List.reverseRecOn with
  | nil => rfl
  | append_singleton rs r ih =>
    rw [List.foldl_append, List.foldl_cons, List.foldl_nil, keys_record (keyed_foldl_record rs),
      ih, List.filterMap_append, List.map_append]
    cases hr : r.declared? with
    | none => simp [hr]
    | some d =>
      rw [List.filterMap_cons_some hr, List.filterMap_nil, List.map_singleton, eraseDups_concat]
      simp only [List.mem_eraseDups]

end Remark

/-- `d` is the last declaration of an actor among remarks, and `after` the remarks after it. -/
def LastDeclared (id : Ident) (d : ActorDecl) (after rs : List Remark) : Prop :=
  d.id.value = id ∧ (∀ e ∈ after.filterMap Remark.declared?, e.id.value ≠ id) ∧
    ∃ before, rs = before ++ .declares d :: after

/-- The actor is what a declaration and the remarks after it make of it. -/
structure Actor.Follows (a : Actor) (d : ActorDecl) (after : List Remark) : Prop where
  kind : a.kind = d.kind.value
  caption : a.caption = d.caption.value
  annotations : a.annotations = d.annotations.map Spanned.value ++ after.flatMap (Remark.refsOn a.id)
  note : a.note = (after.filterMap (Remark.noteOn? a.id)).getLast?
  properties : a.properties = .empty

/-- A remark that declares nothing may follow the last declaration. -/
theorem LastDeclared.concat {id : Ident} {d : ActorDecl} {after rs : List Remark}
    (h : LastDeclared id d after rs) {r : Remark}
    (hr : ∀ e, r.declared? = some e → e.id.value ≠ id) :
    LastDeclared id d (after ++ [r]) (rs ++ [r]) := by
  obtain ⟨hid, hafter, before, rfl⟩ := h
  refine ⟨hid, fun e he => ?_, before, by simp⟩
  rw [List.filterMap_append] at he
  rcases List.mem_append.1 he with he | he
  · exact hafter e he
  · obtain ⟨r', hr', he⟩ := List.mem_filterMap.1 he
    rw [List.mem_singleton.1 hr'] at he
    exact hr e he

namespace Actor.Follows

variable {a : Actor} {d : ActorDecl} {after : List Remark}

/-- A remark on another actor changes nothing. -/
theorem concat (h : a.Follows d after) {r : Remark} (hnote : r.noteOn? a.id = none)
    (hrefs : r.refsOn a.id = []) : a.Follows d (after ++ [r]) where
  kind := h.kind
  caption := h.caption
  annotations := by simp [h.annotations, hrefs]
  note := by simp [h.note, hnote]
  properties := h.properties

theorem withNote (h : a.Follows d after) (text : String) :
    (a.withNote text).Follows d (after ++ [.notes a.id text]) where
  kind := h.kind
  caption := h.caption
  annotations := by simp [Actor.withNote, Remark.refsOn, h.annotations]
  note := by simp [Actor.withNote, Remark.noteOn?]
  properties := h.properties

theorem withAnnotations (h : a.Follows d after) (refs : List Ident) :
    (a.withAnnotations refs).Follows d (after ++ [.assigns a.id refs]) where
  kind := h.kind
  caption := h.caption
  annotations := by simp [Actor.withAnnotations, Remark.refsOn, h.annotations]
  note := by simp [Actor.withAnnotations, Remark.noteOn?, h.note]
  properties := h.properties

end Actor.Follows

theorem ActorDecl.follows (d : ActorDecl) : d.toActor.Follows d [] where
  kind := rfl
  caption := rfl
  annotations := by simp [toActor, Actor.declared, Actor.withAnnotations]
  note := rfl
  properties := rfl

namespace Remark

/-- A remark that revises one actor keeps every actor at its last declaration. -/
theorem exists_lastDeclared_revise {t : Table Ident Actor} {rs : List Remark} {r : Remark}
    {target : Ident} {f : Actor → Actor} (hkeyed : t.Keyed Actor.id) (hf : ∀ a, (f a).id = a.id)
    (hr : r.declared? = none)
    (hown : ∀ {a d after}, a.id = target → Actor.Follows a d after →
      (f a).Follows d (after ++ [r]))
    (hother : ∀ id, target ≠ id → r.noteOn? id = none ∧ r.refsOn id = []) {id : Ident} {a : Actor}
    (ih : ∀ {b}, t.get? id = some b → ∃ d after, LastDeclared id d after rs ∧ b.Follows d after)
    (h : (t.revise Actor.id target f).get? id = some a) :
    ∃ d after, LastDeclared id d after (rs ++ [r]) ∧ a.Follows d after := by
  have hdeclared : ∀ e, r.declared? = some e → e.id.value ≠ id := by
    intro e he
    rw [hr] at he
    cases he
  rw [hkeyed.get?_revise hf] at h
  split at h
  · next ht =>
    obtain ⟨b, hb, rfl⟩ := Option.map_eq_some_iff.1 h
    obtain ⟨d, after, hlast, hfollows⟩ := ih hb
    exact ⟨d, _, hlast.concat hdeclared, hown ((hkeyed id b hb).trans ht.symm) hfollows⟩
  · next ht =>
    obtain ⟨d, after, hlast, hfollows⟩ := ih h
    obtain ⟨hnote, hrefs⟩ := hother a.id fun e => ht (e.trans (hkeyed id a h))
    exact ⟨d, _, hlast.concat hdeclared, hfollows.concat hnote hrefs⟩

/-- An actor that remarks leave follows its last declaration. -/
theorem exists_lastDeclared {rs : List Remark} {id : Ident} {a : Actor}
    (h : (rs.foldl record .empty).get? id = some a) :
    ∃ d after, LastDeclared id d after rs ∧ a.Follows d after := by
  induction rs using List.reverseRecOn generalizing a with
  | nil => cases h
  | append_singleton rs r ih =>
    rw [List.foldl_append, List.foldl_cons, List.foldl_nil] at h
    have hkeyed := keyed_foldl_record rs
    cases r with
    | declares d =>
      rw [record, Table.get?_insert] at h
      split at h
      · next hd =>
        cases h
        exact ⟨d, [], ⟨hd, by simp, rs, rfl⟩, d.follows⟩
      · next hd =>
        obtain ⟨e, after, hlast, ha⟩ := ih h
        refine ⟨e, _, hlast.concat fun d' hd' => ?_, ha.concat rfl rfl⟩
        cases hd'
        exact hd
    | notes target text =>
      refine exists_lastDeclared_revise (r := .notes target text) (f := fun a => a.withNote text)
        hkeyed (fun _ => rfl) rfl ?_ (fun id hne => ⟨if_neg hne, rfl⟩) ih h
      rintro b d after rfl hb
      exact hb.withNote text
    | assigns target refs =>
      refine exists_lastDeclared_revise (r := .assigns target refs)
        (f := fun a => a.withAnnotations refs) hkeyed (fun _ => rfl) rfl ?_
        (fun id hne => ⟨rfl, if_neg hne⟩) ih h
      rintro b d after rfl hb
      exact hb.withAnnotations refs

end Remark

/-! ## Remarks of a program -/

/-- What a statement says of an actor, if it does. -/
def Statement.remark? : Statement → Option Remark
  | actor d => some (.declares d)
  | note d => some (.notes d.target.value d.text.value)
  | assignment d => some (.assigns d.target.value (d.annotations.map Spanned.value))
  | _ => none

/-- The annotation that a statement defines. -/
def Statement.annotation? : Statement → Option AnnotationDef
  | Statement.annotation d => some d
  | _ => none

theorem Scope.actors_updateActor (s : Scope) (id : Ident) (f : Actor → Actor) :
    (s.updateActor id f).actors = s.actors.revise Actor.id id f := by
  unfold updateActor Table.revise
  cases s.actors.get? id <;> rfl

namespace Effect

/-- What an effect says of an actor. -/
def remark? : Effect → Option Remark
  | declareActor d => some (.declares d)
  | setNote target text => some (.notes target text)
  | assign target refs => some (.assigns target refs)
  | _ => none

/-- The annotation that an effect defines. -/
def annotation? : Effect → Option AnnotationDef
  | annotate d => some d
  | _ => none

theorem actors_apply (e : Effect) (s : Scope) :
    (e.apply s).actors = e.remark?.toList.foldl (fun t r => r.record t) s.actors := by
  cases e with
  | useChannel c => exact useChannel_frame Scope.actors (fun _ _ => rfl) c s
  | useFlow f => exact useFlow_frame Scope.actors (fun _ _ => rfl) f s
  | setNote target text => exact s.actors_updateActor target _
  | assign target refs => exact s.actors_updateActor target _
  | _ => rfl

theorem annotations_apply (e : Effect) (s : Scope) :
    (e.apply s).annotations =
      e.annotation?.toList.foldl (fun t d => t.insert d.id.value d.toAnnotation)
        s.annotations := by
  cases e with
  | useChannel c => exact useChannel_frame Scope.annotations (fun _ _ => rfl) c s
  | useFlow f => exact useFlow_frame Scope.annotations (fun _ _ => rfl) f s
  | setNote target text => exact Scope.updateActor_frame Scope.annotations (fun _ _ => rfl) s target _
  | assign target refs => exact Scope.updateActor_frame Scope.annotations (fun _ _ => rfl) s target _
  | _ => rfl

end Effect

/-! ## Remarks of a walk -/

/-- What is seen of no effect about relationships is seen of no act about them. -/
theorem filterMap_of_relates {β : Type} {see : Effect → Option β}
    (hsee : ∀ e, (Act.effect e).Relates → see e = none) {acts : List Act}
    (h : ∀ a ∈ acts, a.Relates) : acts.filterMap (Act.effect? see) = [] := by
  refine List.filterMap_eq_nil_iff.2 fun a ha => ?_
  cases a with
  | check c => rfl
  | effect e => exact hsee e (h _ ha)

theorem remarks_acts (x : Statement) :
    x.acts.filterMap (Act.effect? Effect.remark?) = x.remark?.toList := by
  have hsee : ∀ e : Effect, (Act.effect e).Relates → e.remark? = none := by
    intro e he
    cases e with
    | declareActor d => cases he
    | setNote target text => cases he
    | assign target refs => cases he
    | _ => rfl
  cases x with
  | flow d => exact filterMap_of_relates hsee d.relates_acts
  | scenario d => exact filterMap_of_relates hsee d.relates_acts
  | _ => rfl

theorem annotationDefs_acts (x : Statement) :
    x.acts.filterMap (Act.effect? Effect.annotation?) = x.annotation?.toList := by
  have hsee : ∀ e : Effect, (Act.effect e).Relates → e.annotation? = none := by
    intro e he
    cases e with
    | annotate d => cases he
    | _ => rfl
  cases x with
  | flow d => exact filterMap_of_relates hsee d.relates_acts
  | scenario d => exact filterMap_of_relates hsee d.relates_acts
  | _ => rfl

namespace Program

/-- What a program says of actors, in source order. -/
def remarks (p : Program) : List Remark := (leavesOf p).filterMap Statement.remark?

/-- The annotations that a program defines, in source order. -/
def annotationDefs (p : Program) : List AnnotationDef :=
  (leavesOf p).filterMap Statement.annotation?

theorem remarks_visits (p : Program) :
    (p.visits.map Visit.act).filterMap (Act.effect? Effect.remark?) = p.remarks := by
  rw [filterMap_visits fun a => effect?_ofContainer (fun _ _ => rfl) (fun _ _ => rfl)]
  simp only [remarks_acts]
  exact (List.filterMap_eq_flatMap_toList _ _).symm

theorem annotationDefs_visits (p : Program) :
    (p.visits.map Visit.act).filterMap (Act.effect? Effect.annotation?) = p.annotationDefs := by
  rw [filterMap_visits fun a => effect?_ofContainer (fun _ _ => rfl) (fun _ _ => rfl)]
  simp only [annotationDefs_acts]
  exact (List.filterMap_eq_flatMap_toList _ _).symm

end Program

/-! ## Models -/

/-- The annotation is what a definition makes of it: a key stands where the block has it
first and holds what the block says of it last. -/
structure Annotation.Follows (a : Annotation) (d : AnnotationDef) : Prop where
  id : a.id = d.id.value
  keys : a.properties.keys = (d.properties.map fun x => x.key.value).eraseDups
  values : ∀ k, a.properties.get? k =
    (d.properties.filter fun x => x.key.value = k).getLast?.map fun x => x.value.value

theorem AnnotationDef.follows (d : AnnotationDef) : d.toAnnotation.Follows d where
  id := rfl
  keys := by
    unfold toAnnotation Annotation.defined
    simp only [Table.ofList, List.foldl_map]
    exact Table.keys_foldl_insert _ _ d.properties
  values k := by
    unfold toAnnotation Annotation.defined
    simp only [Table.ofList, List.foldl_map]
    exact Table.get?_foldl_insert_last _ _ d.properties k

theorem Annotation.Follows.withContainer {a : Annotation} {d : AnnotationDef} (h : a.Follows d)
    (container : Option Ident) : (a.withContainer container).Follows d :=
  ⟨h.id, h.keys, h.values⟩

theorem Actor.Follows.withContainer {a : Actor} {d : ActorDecl} {after : List Remark}
    (h : a.Follows d after) (container : Option Ident) :
    (a.withContainer container).Follows d after :=
  ⟨h.kind, h.caption, h.annotations, h.note, h.properties⟩

/-- The actors at the end of a walk are what is left of the remarks of its program. -/
theorem Program.actors_perform {policy : Redeclaration} {p : Program} {s : Scope}
    (h : perform policy (p.visits.map Visit.act) .empty = .ok s) :
    s.actors = p.remarks.foldl Remark.record .empty := by
  rw [perform_fold Effect.actors_apply h, remarks_visits]
  rfl

theorem Program.annotations_perform {policy : Redeclaration} {p : Program} {s : Scope}
    (h : perform policy (p.visits.map Visit.act) .empty = .ok s) :
    s.annotations =
      p.annotationDefs.foldl (fun t d => t.insert d.id.value d.toAnnotation) .empty := by
  rw [perform_fold Effect.annotations_apply h, annotationDefs_visits]
  rfl

/-- A model whose annotations are not resolved lists every declared actor once, in the order
of the first declarations. An actor has the kind and the caption of its last declaration, the
annotations of that declaration and of the assignments after it, the text of the last note
after it and no properties. The same holds of annotations and their definitions. -/
theorem elaborate_lastDeclaration {policy : Redeclaration} {p : Program} {m : SystemModel}
    (h : p.elaborate ⟨false, policy⟩ = .ok m) :
    m.actors.map Actor.id =
      ((p.remarks.filterMap Remark.declared?).map fun d => d.id.value).eraseDups ∧
    (∀ a ∈ m.actors, ∃ d after, LastDeclared a.id d after p.remarks ∧ a.Follows d after) ∧
    m.annotations.keys = (p.annotationDefs.map fun d => d.id.value).eraseDups ∧
    ∀ id a, m.annotations.get? id = some a →
      ∃ d, (p.annotationDefs.filter fun d => d.id.value = id).getLast? = some d ∧
        a.Follows d := by
  obtain ⟨s, hs, rfl⟩ := Program.exists_scope h
  have hactors := Program.actors_perform hs
  have hkeyed := Remark.keyed_foldl_record p.remarks
  refine ⟨?_, fun a ha => ?_, ?_, fun id a ha => ?_⟩
  · rw [← Remark.keys_foldl_record, ← hkeyed.map_values, ← hactors]
    exact List.map_map
  · obtain ⟨b, hb, rfl⟩ := List.mem_map.1 ha
    rw [hactors, hkeyed.mem_values_iff] at hb
    obtain ⟨d, after, hlast, hfollows⟩ := Remark.exists_lastDeclared hb
    exact ⟨d, after, hlast, hfollows.withContainer _⟩
  · refine (Table.keys_mapValues _ _).trans ?_
    rw [Program.annotations_perform hs]
    exact Table.keys_foldl_insert _ _ p.annotationDefs
  · obtain ⟨b, hb, rfl⟩ := Option.map_eq_some_iff.1 ((Table.get?_mapValues _ _ id).symm.trans ha)
    rw [Program.annotations_perform hs, Table.get?_foldl_insert_last,
      Option.map_eq_some_iff] at hb
    obtain ⟨d, hd, rfl⟩ := hb
    exact ⟨d, hd, d.follows.withContainer _⟩

/-- Two last declarations of an actor are one. -/
theorem LastDeclared.unique {id : Ident} {d d' : ActorDecl} {after after' rs : List Remark}
    (h : LastDeclared id d after rs) (h' : LastDeclared id d' after' rs) :
    d = d' ∧ after = after' := by
  obtain ⟨hid, hafter, before, rfl⟩ := h
  obtain ⟨hid', hafter', before', e⟩ := h'
  rcases List.append_eq_append_iff.1 e with ⟨mid, rfl, hmid⟩ | ⟨mid, rfl, hmid⟩
  · cases mid with
    | nil =>
      cases hmid
      exact ⟨rfl, rfl⟩
    | cons r mid =>
      -- the declaration that stands second would come after the last one
      obtain ⟨rfl, rfl⟩ := List.cons.inj hmid
      exact absurd hid' (hafter d' (by simp [Remark.declared?]))
  · cases mid with
    | nil =>
      cases hmid
      exact ⟨rfl, rfl⟩
    | cons r mid =>
      obtain ⟨rfl, rfl⟩ := List.cons.inj hmid
      exact absurd hid (hafter' d (by simp [Remark.declared?]))

/-- The second declaration of `declaredAgain` for its first actor. -/
def declaredStore : ActorDecl := ⟨unplaced .store, unplaced "S", unplaced "a", [unplaced "new"]⟩

/-- An actor is declared, noted and assigned an annotation, and in a container it is declared
again; the annotation is defined again there, with one key twice. -/
def declaredAgain : Program :=
  [unplaced (.actor ⟨unplaced .agent, unplaced "A", unplaced "a", [unplaced "old"]⟩),
    unplaced (.note ⟨unplaced "a", unplaced "old note"⟩),
    unplaced (.assignment ⟨unplaced "a", [unplaced "older"]⟩),
    unplaced (Statement.annotation ⟨unplaced "new", [⟨unplaced .prototype, unplaced "old"⟩]⟩),
    unplaced (.container ⟨unplaced "C", unplaced "c"⟩
      [unplaced (.actor ⟨unplaced .user, unplaced "B", unplaced "b", []⟩),
        unplaced (.actor declaredStore),
        unplaced (.assignment ⟨unplaced "a", [unplaced "newer", unplaced "new"]⟩),
        unplaced (Statement.annotation ⟨unplaced "new",
          [⟨unplaced .color, unplaced "red"⟩, ⟨unplaced .prototype, unplaced "disk"⟩,
            ⟨unplaced .color, unplaced "blue"⟩]⟩)]),
    unplaced (.note ⟨unplaced "b", unplaced "first"⟩),
    unplaced (.note ⟨unplaced "b", unplaced "last"⟩)]

/-- The actor keeps its place; its first note and annotations are gone. -/
theorem elaborate_lastDeclaration_declaredAgain :
    ∃ m, declaredAgain.elaborate ⟨false, .replace⟩ = .ok m ∧
      m.actors.map Actor.id = ["a", "b"] ∧
      (∀ a ∈ m.actors, a.id = "a" → a.kind = .store ∧ a.caption = "S" ∧
        a.annotations = ["new", "newer", "new"] ∧ a.note = none) ∧
      m.annotations.keys = ["new"] ∧
      ∀ a, m.annotations.get? "new" = some a → a.properties.keys = [.color, .prototype] ∧
        a.properties.get? .color = some "blue" := by
  have hm : (declaredAgain.elaborate ⟨false, .replace⟩).toOption.map (fun _ => ()) = some () := by
    decide +kernel
  obtain ⟨m, h, _⟩ := exists_ok_of_toOption hm
  obtain ⟨hactors, hfollows, hannotations, hdefined⟩ := elaborate_lastDeclaration h
  refine ⟨m, h, hactors.trans (by decide +kernel), fun a ha e => ?_,
    hannotations.trans (by decide +kernel), fun a ha => ?_⟩
  · obtain ⟨d, after, hlast, hd⟩ := hfollows a ha
    rw [e] at hlast
    have hstore : LastDeclared "a" declaredStore (declaredAgain.remarks.drop 5)
        declaredAgain.remarks := ⟨rfl, by decide +kernel, declaredAgain.remarks.take 4, rfl⟩
    obtain ⟨rfl, rfl⟩ := hlast.unique hstore
    have hannotations := hd.annotations
    have hnote := hd.note
    rw [e] at hannotations hnote
    exact ⟨hd.kind, hd.caption, hannotations.trans (by decide +kernel),
      hnote.trans (by decide +kernel)⟩
  · obtain ⟨d, hd, ha⟩ := hdefined "new" a ha
    cases hd
    exact ⟨ha.keys.trans (by decide +kernel), (ha.values .color).trans (by decide +kernel)⟩

end ArchScript
