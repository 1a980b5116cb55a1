/-
  An export tells everything about its model.

  Every part of a model is a document that no other such part is: its fields stand in a fixed
  order, a field that may be left out is known by its name (`optionalText_cancel`), and the
  written forms of the kinds differ. The document of a model holds texts, lists and records
  only, and a written document of these can be read in one way. So models with one JSON text
  are the same, the order of their tables included (`toJson_injective`).
-/
import ArchScript.Export
import ArchScript.Proofs.Compile
import ArchScript.Proofs.Export.Cancel

namespace ArchScript

open Document (Verbal)

/-- A written form that is read back is the form of one value only. -/
theorem eq_of_text_eq {α : Type} {text : α → String} {ofText? : String → Option α}
    (h : ∀ x, ofText? (text x) = some x) {x y : α} (hxy : text x = text y) : x = y := by
  rw [← Option.some_inj, ← h x, hxy, h y]

namespace Export

/-! ## Exports hold no numbers -/

theorem verbal_texts (xs : List String) : (texts xs).Verbal :=
  .list (List.forall_mem_map.2 fun x _ => .text x)

theorem verbal_optionalText (name : String) (o : Option String) :
    ∀ f ∈ optionalText name o, f.2.Verbal := by
  cases o with
  | none => exact fun f hf => (List.not_mem_nil hf).elim
  | some s => exact List.forall_mem_singleton.2 (.text s)

theorem verbal_properties (ps : Properties) : (properties ps).Verbal :=
  .record (List.forall_mem_map.2 fun p _ => .text p.2)

theorem verbal_actor (a : Actor) : (actor a).Verbal := by
  refine .record (List.forall_mem_append.2 ⟨List.forall_mem_append.2
    ⟨List.forall_mem_append.2 ⟨?_, verbal_optionalText _ _⟩, ?_⟩, verbal_optionalText _ _⟩)
  · simp [Verbal.text]
  · simp [verbal_texts, verbal_properties]

theorem verbal_channel (c : Channel) : (channel c).Verbal :=
  .record (List.forall_mem_append.2 ⟨by simp [Verbal.text], verbal_optionalText _ _⟩)

theorem verbal_dataFlow (f : DataFlow) : (dataFlow f).Verbal :=
  .record (List.forall_mem_append.2 ⟨by simp [Verbal.text], verbal_optionalText _ _⟩)

theorem verbal_scenario (x : Scenario) : (scenario x).Verbal := by
  have hstep : ∀ s : Step, (step s).Verbal := fun s => .record (by simp [Verbal.text])
  refine .record (List.forall_mem_cons.2 ⟨.text _, List.forall_mem_singleton.2 ?_⟩)
  exact .list (List.forall_mem_map.2 fun s _ => hstep s)

theorem verbal_annotation (a : Annotation) : Verbal <| annotation a :=
  .record (List.forall_mem_append.2
    ⟨by simp [Verbal.text, verbal_properties], verbal_optionalText _ _⟩)

theorem verbal_container (c : Container) : (container c).Verbal :=
  .record (List.forall_mem_append.2
    ⟨by simp [Verbal.text, verbal_texts], verbal_optionalText _ _⟩)

theorem verbal_model (m : SystemModel) : (model m).Verbal := by
  refine .record ?_
  simp only [List.forall_mem_cons]
  refine ⟨.text _, .list ?_, .list ?_, .list ?_, .list ?_, .record ?_, .record ?_, by simp⟩
  · exact List.forall_mem_map.2 fun a _ => verbal_actor a
  · exact List.forall_mem_map.2 fun c _ => verbal_channel c
  · exact List.forall_mem_map.2 fun f _ => verbal_dataFlow f
  · exact List.forall_mem_map.2 fun x _ => verbal_scenario x
  · exact List.forall_mem_map.2 fun e _ => verbal_annotation e.2
  · exact List.forall_mem_map.2 fun e _ => verbal_container e.2

/-! ## Fields -/

/-- A field that may be left out is known by its name, as the next field has another. -/
theorem optionalText_cancel {name : String} {o o' : Option String}
    {fs gs : List (String × Document)} (hfs : ∀ f ∈ fs.head?, f.1 ≠ name)
    (hgs : ∀ g ∈ gs.head?, g.1 ≠ name)
    (h : optionalText name o ++ fs = optionalText name o' ++ gs) :
    o = o' ∧ fs = gs := by
  cases o with
  | none =>
    cases o' with
    | none => exact ⟨rfl, h⟩
    | some s =>
      rw [show fs = (name, Document.text s) :: gs from h] at hfs
      exact (hfs _ rfl rfl).elim
  | some s =>
    cases o' with
    | none =>
      rw [← show (name, Document.text s) :: fs = gs from h] at hgs
      exact (hgs _ rfl rfl).elim
    | some s' =>
      obtain ⟨hfield, hrest⟩ := List.cons.inj h
      cases hfield
      exact ⟨rfl, hrest⟩

/-- The last field of a record may be left out. -/
theorem optionalText_inj {name : String} {o o' : Option String}
    (h : optionalText name o = optionalText name o') : o = o' :=
  (@optionalText_cancel name o o' [] [] nofun nofun (by rw [h])).1

theorem texts_inj {xs ys : List String} (h : texts xs = texts ys) : xs = ys :=
  (List.map_inj_right fun _ _ => Document.text.inj).1 (Document.list.inj h)

theorem properties_inj {ps qs : Properties} (h : properties ps = properties qs) : ps = qs := by
  refine Table.ext ((List.map_inj_right fun p q hpq => ?_).1 (Document.record.inj h))
  obtain ⟨hkey, hvalue⟩ := Prod.mk.inj hpq
  exact Prod.ext (eq_of_text_eq PropertyKey.ofText?_text hkey) (Document.text.inj hvalue)

/-! ## Entities -/

theorem actor_inj {a b : Actor} (h : actor a = actor b) : a = b := by
  obtain ⟨id, kind, caption, note, annotations, properties, container⟩ := a
  obtain ⟨id', kind', caption', note', annotations', properties', container'⟩ := b
  simp only [actor, Document.record.injEq, List.append_assoc, List.cons_append, List.nil_append,
    List.cons.injEq, Prod.mk.injEq, Document.text.injEq, true_and] at h
  obtain ⟨rfl, hkind, rfl, h⟩ := h
  -- the note stands in the middle, so the fields behind it are found by their names
  obtain ⟨hnote, hfields⟩ := optionalText_cancel (by simp) (by simp) h
  simp only [List.cons.injEq, Prod.mk.injEq, true_and] at hfields
  obtain ⟨hannotations, hproperties, hcontainer⟩ := hfields
  rw [eq_of_text_eq ActorKind.ofText?_text hkind, hnote, texts_inj hannotations,
    properties_inj hproperties, optionalText_inj hcontainer]

theorem channel_inj {c d : Channel} (h : channel c = channel d) : c = d := by
  obtain ⟨kind, source, target, text, container⟩ := c
  obtain ⟨kind', source', target', text', container'⟩ := d
  simp only [channel, Document.record.injEq, List.cons_append, List.nil_append, List.cons.injEq,
    Prod.mk.injEq, Document.text.injEq, true_and] at h
  obtain ⟨_, hkind, rfl, rfl, rfl, hcontainer⟩ := h
  rw [eq_of_text_eq ChannelKind.ofText?_text hkind, optionalText_inj hcontainer]

theorem dataFlow_inj {f g : DataFlow} (h : dataFlow f = dataFlow g) : f = g := by
  obtain ⟨kind, source, target, container⟩ := f
  obtain ⟨kind', source', target', container'⟩ := g
  simp only [dataFlow, Document.record.injEq, List.cons_append, List.nil_append, List.cons.injEq,
    Prod.mk.injEq, Document.text.injEq, true_and] at h
  obtain ⟨_, hkind, rfl, rfl, hcontainer⟩ := h
  rw [eq_of_text_eq FlowKind.ofText?_text hkind, optionalText_inj hcontainer]

theorem step_inj {s t : Step} (h : step s = step t) : s = t := by
  obtain ⟨kind, relation, message⟩ := s
  obtain ⟨kind', relation', message'⟩ := t
  simp only [step, Document.record.injEq, List.cons.injEq, Prod.mk.injEq, Document.text.injEq,
    true_and, and_true] at h
  obtain ⟨hkind, rfl, rfl⟩ := h
  rw [eq_of_text_eq StepKind.ofText?_text hkind]

theorem scenario_inj {x y : Scenario} (h : scenario x = scenario y) : x = y := by
  obtain ⟨name, steps⟩ := x
  obtain ⟨name', steps'⟩ := y
  simp only [scenario, Document.record.injEq, List.cons.injEq, Prod.mk.injEq, Document.text.injEq,
    Document.list.injEq, true_and, and_true] at h
  obtain ⟨rfl, hsteps⟩ := h
  rw [(List.map_inj_right fun _ _ => step_inj).1 hsteps]

theorem annotation_inj {a b : Annotation} (h : annotation a = annotation b) : a = b := by
  obtain ⟨id, properties, container⟩ := a
  obtain ⟨id', properties', container'⟩ := b
  simp only [Document.record.injEq, annotation, List.cons_append, List.nil_append, List.cons.injEq,
    Prod.mk.injEq, Document.text.injEq, true_and] at h
  obtain ⟨rfl, hproperties, hcontainer⟩ := h
  rw [properties_inj hproperties, optionalText_inj hcontainer]

theorem container_inj {c d : Container} (h : container c = container d) : c = d := by
  obtain ⟨id, name, ⟨actors, channels, dataFlows, annotations, containers⟩, parent⟩ := c
  obtain ⟨id', name', ⟨actors', channels', dataFlows', annotations', containers'⟩, parent'⟩ := d
  simp only [container, Document.record.injEq, List.cons_append, List.nil_append, List.cons.injEq,
    Prod.mk.injEq, Document.text.injEq, true_and] at h
  obtain ⟨rfl, rfl, hactors, hchannels, hflows, hannotations, hcontainers, hparent⟩ := h
  rw [texts_inj hactors, texts_inj hchannels, texts_inj hflows, texts_inj hannotations,
    texts_inj hcontainers, optionalText_inj hparent]

/-- A table that is written entry by entry keeps its entries and their order. -/
theorem table_inj {α : Type} {value : α → Document} (hvalue : ∀ {x y}, value x = value y → x = y)
    {s t : Table Ident α}
    (h : (s.entries.map fun e => (e.1, value e.2)) = t.entries.map fun e => (e.1, value e.2)) :
    s = t := by
  refine Table.ext ((List.map_inj_right fun e e' he => ?_).1 h)
  obtain ⟨hkey, hv⟩ := Prod.mk.inj he
  exact Prod.ext hkey (hvalue hv)

theorem model_inj {m n : SystemModel} (h : model m = model n) : m = n := by
  obtain ⟨name, actors, channels, dataFlows, scenarios, annotations, containers⟩ := m
  obtain ⟨name', actors', channels', dataFlows', scenarios', annotations', containers'⟩ := n
  simp only [model, Document.record.injEq, List.cons.injEq, Prod.mk.injEq, Document.text.injEq,
    Document.list.injEq, true_and, and_true] at h
  obtain ⟨rfl, hactors, hchannels, hflows, hscenarios, hannotations, hcontainers⟩ := h
  rw [(List.map_inj_right fun _ _ => actor_inj).1 hactors,
    (List.map_inj_right fun _ _ => channel_inj).1 hchannels,
    (List.map_inj_right fun _ _ => dataFlow_inj).1 hflows,
    (List.map_inj_right fun _ _ => scenario_inj).1 hscenarios,
    table_inj annotation_inj hannotations, table_inj container_inj hcontainers]

end Export

/-! ## Models -/

/-- Two models with one JSON text, on many lines or on one, are equal in every field and in the
order of every table. -/
theorem toJson_injective {m n : SystemModel} {pretty : Bool}
    (h : m.toJson pretty = n.toJson pretty) :
    m = n :=
  Export.model_inj ((Export.verbal_model m).eq_of_render (Export.verbal_model n) h)

/-- Two actors in one container, of which only the first has a note, an empty one. -/
def notedPair : String :=
  "container 'C' as c \x7b agent 'A' as a is @x; note for a: ''; user 'B' as b; \x7d; " ++
    "@x \x7b color: 'red' \x7d;"

/-- The model of the pair, written out. -/
def notedPairModel : SystemModel :=
  { SystemModel.empty with
    actors := [⟨"a", .agent, "A", some "", ["x"], ⟨[(.color, "red")], by decide⟩, some "c"⟩,
      ⟨"b", .user, "B", none, [], .empty, some "c"⟩]
    annotations := ⟨[("x", ⟨"x", ⟨[(.color, "red")], by decide⟩, none⟩)], by decide⟩
    containers := ⟨[("c", ⟨"c", "C", ⟨["a", "b"], [], [], [], []⟩, none⟩)], by decide⟩ }

/-- The source of the pair has the model that is exported as it is. -/
theorem toJson_injective_notedPair :
    ∃ m, compile .default notedPair = .ok m ∧
      m.toJson true = notedPairModel.toJson true ∧ m = notedPairModel := by
  have htext : (compile .default notedPair).toOption.map
      (fun m => Json.write .pretty 0 (Export.model m)) =
        some (Json.write .pretty 0 (Export.model notedPairModel)) := by decide +kernel
  obtain ⟨m, hm, hwritten⟩ := exists_ok_of_toOption htext
  have h : m.toJson true = notedPairModel.toJson true := congrArg String.ofList hwritten
  exact ⟨m, hm, h, toJson_injective h⟩

end ArchScript
