/-
  A declaration is final when second declarations are rejected.

  What has been defined was not defined before, under its kind or a rival one
  (`not_defined_of_defined?`). So from one scope of a run to any later one an actor only
  gains a note and annotations (`Actor.Grows`), and its id never names a container
  (`Program.Reaches.apart`). The ends of a relationship are checked where it is mentioned,
  and by then they are final: every relationship of every scope is well typed.
-/
import ArchScript.Proofs.Checking.Reach
import ArchScript.Proofs.Declarations.Last
import ArchScript.Proofs.Relationships.Types

namespace ArchScript

/-! ## Actors that grow -/

/-- The actor `b` is `a` with more said of it. -/
structure Actor.Grows (a b : Actor) : Prop where
  kind : b.kind = a.kind
  caption : b.caption = a.caption
  note : a.note.isSome = true → b.note.isSome = true
  annotations : a.annotations <+: b.annotations

namespace Actor.Grows

variable {a b c : Actor}

theorem refl (a : Actor) : a.Grows a := ⟨rfl, rfl, fun h => h, List.prefix_refl _⟩

theorem trans (h : a.Grows b) (h' : b.Grows c) : a.Grows c where
  kind := h'.kind.trans h.kind
  caption := h'.caption.trans h.caption
  note ha := h'.note (h.note ha)
  annotations := h.annotations.trans h'.annotations

theorem withNote (a : Actor) (text : String) : a.Grows (a.withNote text) :=
  ⟨rfl, rfl, fun _ => rfl, List.prefix_refl _⟩

theorem withAnnotations (a : Actor) (refs : List Ident) : a.Grows (a.withAnnotations refs) :=
  ⟨rfl, rfl, fun h => h, List.prefix_append _ _⟩

end Actor.Grows

theorem Table.Keyed.grows_revise {t : Table Ident Actor} (h : t.Keyed Actor.id)
    {f : Actor → Actor} (hf : ∀ a : Actor, a.Grows (f a)) (hid : ∀ a, (f a).id = a.id)
    (target : Ident) {id : Ident} {a : Actor} (ha : t.get? id = some a) :
    ∃ b, (t.revise Actor.id target f).get? id = some b ∧ a.Grows b := by
  rw [h.get?_revise hid, ha]
  split
  · exact ⟨f a, rfl, hf a⟩
  · exact ⟨a, rfl, .refl a⟩

/-- A remark that does not declare an actor again lets it grow. -/
theorem Remark.grows_record {t : Table Ident Actor} (h : t.Keyed Actor.id) {r : Remark}
    {id : Ident} (hr : ∀ d, r.declared? = some d → d.id.value ≠ id) {a : Actor}
    (ha : t.get? id = some a) : ∃ b, (r.record t).get? id = some b ∧ a.Grows b := by
  cases r with
  | declares d =>
    rw [record, Table.get?_insert, if_neg (hr d rfl)]
    exact ⟨a, ha, .refl a⟩
  | notes target text =>
    exact h.grows_revise (fun a => .withNote a text) (fun _ => rfl) target ha
  | assigns target refs =>
    exact h.grows_revise (fun a => .withAnnotations a refs) (fun _ => rfl) target ha

/-- An effect that does not declare an actor again lets it grow. -/
theorem Effect.grows_apply {s : Scope} (h : s.Keyed) {e : Effect} {id : Ident}
    (he : e.defined? ≠ some ⟨.actor, id⟩) {a : Actor} (ha : s.actors.get? id = some a) :
    ∃ b, (e.apply s).actors.get? id = some b ∧ a.Grows b := by
  rw [actors_apply]
  cases hr : e.remark? with
  | none => exact ⟨a, ha, .refl a⟩
  | some r =>
    refine Remark.grows_record h.actors (fun d hd => ?_) ha
    rintro rfl
    cases e with
    | declareActor d' =>
      cases hr
      cases hd
      exact he rfl
    | setNote target text =>
      cases hr
      cases hd
    | assign target refs =>
      cases hr
      cases hd
    | _ => cases hr

/-! ## Types of relationships in a scope -/

/-- The kind of the actor with the id `x`. -/
def Scope.kind? (s : Scope) (x : Ident) : Option ActorKind := (s.actors.get? x).map Actor.kind

/-- Every relationship of the scope is well typed by the actors that its ends look up to. -/
structure Scope.WellTyped (s : Scope) : Prop where
  channels : ∀ c ∈ s.channels.values, c.Typed s.kind?
  dataFlows : ∀ f ∈ s.dataFlows.values, f.Typed s.kind?

section Kinds

variable {old new : Ident → Option ActorKind} (hkinds : ∀ x k, old x = some k → new x = some k)

include hkinds

theorem ActiveIn.mono {x : Ident} (h : ActiveIn old x) : ActiveIn new x :=
  h.imp fun k hk => ⟨hkinds x k hk.1, hk.2⟩

theorem StoreIn.mono {x : Ident} (h : StoreIn old x) : StoreIn new x :=
  h.imp fun k hk => ⟨hkinds x k hk.1, hk.2⟩

theorem Channel.Typed.mono {c : Channel} (h : c.Typed old) : c.Typed new :=
  ⟨h.1.mono hkinds, h.2.mono hkinds⟩

theorem DataFlow.Typed.mono {f : DataFlow} (h : f.Typed old) : f.Typed new :=
  ⟨h.1.mono hkinds, h.2.mono hkinds⟩

end Kinds

/-- An operand that passes refers to an actor of the right kind. -/
theorem Check.activeIn_of_test {policy : Redeclaration} {s : Scope} (hs : s.Keyed)
    {role : EndRole} {ref : Spanned Ident}
    (h : (Check.active role ref).test policy s = .ok ()) : ActiveIn s.kind? ref.value := by
  obtain ⟨a, ha, hx⟩ := Reader.bind_eq_ok.1 h
  split at hx
  · next hk => exact ⟨a.kind, congrArg _ (actor_id hs ha).1, hk⟩
  · cases hx

theorem Check.storeIn_of_test {policy : Redeclaration} {s : Scope} (hs : s.Keyed)
    {role : EndRole} {ref : Spanned Ident}
    (h : (Check.store role ref).test policy s = .ok ()) : StoreIn s.kind? ref.value := by
  obtain ⟨a, ha, hx⟩ := Reader.bind_eq_ok.1 h
  split at hx
  · next hk => exact ⟨a.kind, congrArg _ (actor_id hs ha).1, hk⟩
  · cases hx

/-- A relationship is well typed in the scope that has passed its checks. -/
theorem Effect.typed_of_guarded {policy : Redeclaration} {s : Scope} (hs : s.Keyed) {e : Effect}
    (h : e.Guarded fun c => c.test policy s = .ok ()) : e.Typed s.kind? := by
  have hactive : ∀ {x}, AskedActive (fun c => c.test policy s = .ok ()) x →
      ActiveIn s.kind? x := by
    rintro x ⟨role, ref, rfl, hx⟩
    exact Check.activeIn_of_test hs hx
  have hstore : ∀ {x}, AskedStore (fun c => c.test policy s = .ok ()) x →
      StoreIn s.kind? x := by
    rintro x ⟨role, ref, rfl, hx⟩
    exact Check.storeIn_of_test hs hx
  cases e with
  | declareChannel c => exact And.imp hactive hactive h
  | useChannel c => exact And.imp hactive hactive h
  | declareFlow f => exact And.imp hactive hstore h
  | useFlow f => exact And.imp hactive hstore h
  | _ => trivial

/-- What holds of the values of a table and of a mentioned value holds of all values after
the mention. -/
theorem Table.forall_values_mention {κ α : Type} [DecidableEq κ] {key : α → κ} {t : Table κ α}
    {P : α → Prop} (ht : ∀ v ∈ t.values, P v) {m : Option (Mention α)}
    (hm : ∀ x, m = some x → P x.value) :
    ∀ v ∈ (m.toList.foldl (Table.mention key) t).values, P v := by
  cases m with
  | none => exact ht
  | some x =>
    intro v hv
    obtain ⟨k, hk⟩ := Table.mem_values_iff.1 hv
    simp only [Option.toList_some, List.foldl_cons, List.foldl_nil, Table.get?_mention] at hk
    have hold : t.get? k = some v → P v := fun h => ht v (Table.mem_values_iff.2 ⟨k, h⟩)
    split at hk
    · cases x with
      | declares w =>
        cases hk
        exact hm _ rfl
      | uses w =>
        rw [Mention.declared?, Option.none_or, Option.or_eq_some_iff] at hk
        rcases hk with hk | ⟨_, hk⟩
        · exact hold hk
        · cases hk
          exact hm _ rfl
    · exact hold hk

/-- An effect keeps a scope well typed when its own relationship is and all kinds stay. -/
theorem Scope.WellTyped.apply {s : Scope} (h : s.WellTyped) {e : Effect}
    (he : e.Typed s.kind?) (hkinds : ∀ x k, s.kind? x = some k → (e.apply s).kind? x = some k) :
    (e.apply s).WellTyped := by
  obtain ⟨hchannel, hflow⟩ := (Effect.typed_iff_mentions e).1 he
  refine ⟨fun c hc => Channel.Typed.mono hkinds ?_, fun f hf => DataFlow.Typed.mono hkinds ?_⟩
  · rw [Effect.channels_apply] at hc
    exact Table.forall_values_mention h.channels hchannel c hc
  · rw [Effect.dataFlows_apply] at hf
    exact Table.forall_values_mention h.dataFlows hflow f hf

/-! ## Definitions of a run -/

/-- When second declarations are rejected, neither an actor nor a container of this id is
there before one of them is defined. -/
theorem Effect.not_defined_of_defined? {s : Scope} {e : Effect}
    (h : e.Guarded fun c => c.test .reject s = .ok ()) {x : Ident}
    (he : e.defined? = some ⟨.actor, x⟩ ∨ e.defined? = some ⟨.container, x⟩) :
    ⟨.actor, x⟩ ∉ s.firstDefined.keys ∧ ⟨.container, x⟩ ∉ s.firstDefined.keys := by
  cases e with
  | declareActor d =>
    have hx : d.id.value = x := by simpa [defined?] using he
    subst hx
    have hrivals := Check.not_mem_firstDefined h
    exact ⟨hrivals _ (by simp [DefinitionKind.rivals]),
      hrivals _ (by simp [DefinitionKind.rivals])⟩
  | openBody path head =>
    have hx : head.id.value = x := by simpa [defined?] using he
    subst hx
    have hrivals := Check.not_mem_firstDefined h
    exact ⟨hrivals _ (by simp [DefinitionKind.rivals]),
      hrivals _ (by simp [DefinitionKind.rivals])⟩
  | _ => simp [defined?] at he

namespace Program.Reaches

variable {p : Program} {policy : Redeclaration} {vs ws : List Visit} {s t : Scope}

/-- The scope has noted what was defined. -/
theorem mem_firstDefined_iff (h : p.Reaches policy vs s) (m : Member) :
    m ∈ s.firstDefined.keys ↔ DefinedIn vs m := by
  refine (nil p policy).induction (P := fun vs s => m ∈ s.firstDefined.keys ↔ DefinedIn vs m)
    ?_ ?_ ?_ h List.nil_prefix
  · simp [DefinedIn, Scope.empty, Table.keys, Table.empty]
  · intro ws t body c _ ih
    rw [ih, definedIn_append_check]
  · intro ws t body e _ _ _ ih
    rw [Scope.mem_firstDefined_apply, ih, definedIn_append_effect]

/-- Actors, annotations and containers of a scope were defined. -/
theorem definedIn_of_mem_ids (h : p.Reaches policy vs s) {m : Member} (hm : m.id ∈ s.ids m.kind)
    (hc : m.kind ≠ .channel) (hf : m.kind ≠ .dataFlow) : DefinedIn vs m := by
  refine (nil p policy).induction (P := fun vs s => m.id ∈ s.ids m.kind → DefinedIn vs m)
    ?_ ?_ ?_ h List.nil_prefix hm
  · obtain ⟨kind, id⟩ := m
    cases kind <;> simp [Scope.ids, Scope.empty, Table.keys, Table.empty]
  · intro ws t body c _ ih hm
    rw [definedIn_append_check]
    exact ih hm
  · intro ws t body e ht _ hopened ih hm
    rw [definedIn_append_effect]
    rcases (Scope.mem_ids_apply ht.keyed e m).1 hm with hplaced | hm
    · cases e with
      | declareActor d => exact Or.inl hplaced
      | annotate d => exact Or.inl hplaced
      | closeBody path head =>
        cases hplaced
        exact Or.inr (hopened path head rfl)
      | declareChannel c =>
        cases hplaced
        exact absurd rfl hc
      | useChannel c =>
        cases hplaced
        exact absurd rfl hc
      | declareFlow f =>
        cases hplaced
        exact absurd rfl hf
      | useFlow f =>
        cases hplaced
        exact absurd rfl hf
      | _ => cases hplaced
    · exact Or.inr (ih hm)

/-- An id is never defined as an actor and as a container. -/
theorem apart (h : p.Reaches .reject vs s) (x : Ident) :
    ¬ (DefinedIn vs ⟨.actor, x⟩ ∧ DefinedIn vs ⟨.container, x⟩) := by
  refine (nil p .reject).induction
    (P := fun vs _ => ¬ (DefinedIn vs ⟨.actor, x⟩ ∧ DefinedIn vs ⟨.container, x⟩))
    ?_ ?_ ?_ h List.nil_prefix
  · simp [DefinedIn]
  · intro ws t body c _ ih
    rw [definedIn_append_check, definedIn_append_check]
    exact ih
  · intro ws t body e ht hguarded _ ih
    rw [definedIn_append_effect, definedIn_append_effect]
    have hnew := fun he => Effect.not_defined_of_defined? hguarded (x := x) he
    rw [ht.mem_firstDefined_iff, ht.mem_firstDefined_iff] at hnew
    rintro ⟨ha | ha, hc | hc⟩
    · cases ha.symm.trans hc
    · exact (hnew (Or.inl ha)).2 hc
    · exact (hnew (Or.inr hc)).1 ha
    · exact ih ⟨ha, hc⟩

/-- The next effect of a run does not declare an actor of the scope again. -/
theorem defined?_ne (h : p.Reaches .reject vs s) {e : Effect}
    (he : e.Guarded fun c => c.test .reject s = .ok ()) {id : Ident} {a : Actor}
    (ha : s.actors.get? id = some a) : e.defined? ≠ some ⟨.actor, id⟩ := by
  intro hd
  have hdefined : DefinedIn vs ⟨.actor, id⟩ :=
    h.definedIn_of_mem_ids (Table.mem_keys_iff.2 ⟨a, ha⟩) nofun nofun
  exact (Effect.not_defined_of_defined? he (Or.inl hd)).1 ((h.mem_firstDefined_iff _).2 hdefined)

/-- An actor of a scope is in every later scope and has only grown. -/
theorem grows (h : p.Reaches .reject vs s) (h' : p.Reaches .reject ws t) (hle : vs <+: ws)
    {id : Ident} {a : Actor} (ha : s.actors.get? id = some a) :
    ∃ b, t.actors.get? id = some b ∧ a.Grows b := by
  refine h.induction (P := fun _ t => ∃ b, t.actors.get? id = some b ∧ a.Grows b)
    ⟨a, ha, .refl a⟩ ?_ ?_ h' hle
  · intro ws t body c _ ih
    exact ih
  · rintro ws t body e ht hguarded _ ⟨b, hb, hab⟩
    obtain ⟨c, hc, hbc⟩ := Effect.grows_apply ht.keyed (ht.defined?_ne hguarded hb) hb
    exact ⟨c, hc, hab.trans hbc⟩

theorem wellTyped (h : p.Reaches .reject vs s) : s.WellTyped := by
  refine (nil p .reject).induction (P := fun _ s => s.WellTyped) ⟨nofun, nofun⟩ ?_ ?_ h
    List.nil_prefix
  · intro ws t body c _ ih
    exact ih
  · intro ws t body e ht hguarded _ ih
    refine ih.apply (Effect.typed_of_guarded ht.keyed hguarded) fun x k hk => ?_
    obtain ⟨a, ha, rfl⟩ := Option.map_eq_some_iff.1 hk
    obtain ⟨b, hb, hab⟩ := Effect.grows_apply ht.keyed (ht.defined?_ne hguarded ha) ha
    exact Option.map_eq_some_iff.2 ⟨b, hb, hab.kind⟩

end Program.Reaches

/-- When second declarations are rejected, an actor of a reached scope keeps its kind and
caption in every later scope of the run; its note stays once it is set, and its annotations
only grow at the end. Its id never names a container, started or finished. So all channels
of a reached scope join agents and users, and all data flows one of them and a store. -/
theorem reject_declarations_final {p : Program} {vs ws : List Visit} {s t : Scope}
    (h : p.Reaches .reject vs s) (h' : p.Reaches .reject ws t) (hle : vs <+: ws) :
    (∀ id a, s.actors.get? id = some a → ∃ b, t.actors.get? id = some b ∧ a.Grows b) ∧
    (∀ id ∈ s.actors.keys, ¬ DefinedIn ws ⟨.container, id⟩ ∧ id ∉ t.containers.keys) ∧
    s.WellTyped ∧ t.WellTyped := by
  refine ⟨fun id a ha => h.grows h' hle ha, fun id hid => ?_, h.wellTyped, h'.wellTyped⟩
  obtain ⟨a, ha⟩ := Table.mem_keys_iff.1 hid
  obtain ⟨b, hb, _⟩ := h.grows h' hle ha
  have hactor : DefinedIn ws ⟨.actor, id⟩ :=
    h'.definedIn_of_mem_ids (Table.mem_keys_iff.2 ⟨b, hb⟩) nofun nofun
  have hcontainer : ¬ DefinedIn ws ⟨.container, id⟩ := fun hc => h'.apart id ⟨hactor, hc⟩
  exact ⟨hcontainer, fun hc => hcontainer (h'.definedIn_of_mem_ids hc nofun nofun)⟩

/-- An actor is noted and assigned an annotation in a container; in the end its id is given
to a container. -/
def rejectedLate : Program :=
  [unplaced (.actor ⟨unplaced .agent, unplaced "A", unplaced "a", [unplaced "old"]⟩),
    unplaced (.container ⟨unplaced "C", unplaced "c"⟩
      [unplaced (.note ⟨unplaced "a", unplaced "text"⟩),
        unplaced (.assignment ⟨unplaced "a", [unplaced "new"]⟩),
        unplaced (.call ⟨.async, unplaced "a", unplaced "a", none⟩)]),
    unplaced (.container ⟨unplaced "B", unplaced "a"⟩ [])]

/-- The run fails, and what it reached until then is final. -/
theorem reject_declarations_final_rejectedLate :
    (rejectedLate.elaborate ⟨true, .reject⟩).toOption.isNone ∧
    ∃ s t, rejectedLate.Reaches .reject (rejectedLate.visits.take 2) s ∧
      rejectedLate.Reaches .reject (rejectedLate.visits.take 12) t ∧
      (∃ a b, s.actors.get? "a" = some a ∧ t.actors.get? "a" = some b ∧ b.kind = .agent ∧
        b.caption = "A" ∧ a.annotations = ["old"] ∧ a.annotations <+: b.annotations) ∧
      "a" ∉ t.containers.keys ∧ t.WellTyped := by
  have hs : (perform .reject ((rejectedLate.visits.take 2).map Visit.act) .empty).toOption.map
      (fun s => (s.actors.get? "a").map fun a => (a.kind, a.caption, a.annotations)) =
      some (some (.agent, "A", ["old"])) := by decide +kernel
  have ht : (perform .reject ((rejectedLate.visits.take 12).map Visit.act) .empty).toOption.map
      (fun _ => ()) = some () := by decide +kernel
  obtain ⟨s, hs, hactor⟩ := exists_ok_of_toOption hs
  obtain ⟨t, ht, _⟩ := exists_ok_of_toOption ht
  have hreach : rejectedLate.Reaches .reject (rejectedLate.visits.take 2) s :=
    ⟨List.take_prefix _ _, hs⟩
  have hreach' : rejectedLate.Reaches .reject (rejectedLate.visits.take 12) t :=
    ⟨List.take_prefix _ _, ht⟩
  have hle : rejectedLate.visits.take 2 <+: rejectedLate.visits.take 12 :=
    List.take_prefix_take_left (by decide)
  obtain ⟨hgrows, hapart, _, htyped⟩ := reject_declarations_final hreach hreach' hle
  obtain ⟨a, ha, he⟩ := Option.map_eq_some_iff.1 hactor
  obtain ⟨b, hb, hab⟩ := hgrows "a" a ha
  obtain ⟨hkind, he⟩ := Prod.mk.inj he
  obtain ⟨hcaption, hrefs⟩ := Prod.mk.inj he
  exact ⟨by decide +kernel, s, t, hreach, hreach', ⟨a, b, ha, hb, hab.kind.trans hkind,
    hab.caption.trans hcaption, hrefs, hab.annotations⟩,
    (hapart "a" (Table.mem_keys_iff.2 ⟨a, ha⟩)).2, htyped⟩

end ArchScript
