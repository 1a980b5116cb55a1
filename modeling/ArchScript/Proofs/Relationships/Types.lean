/-
  Which relationships of a model are well typed.

  A channel joins agents and users; a data flow joins one of them with a store. The ends are
  checked where a relationship is mentioned (`Program.typed_where_mentioned`), but an actor
  may be declared again with another kind. So a model is well typed exactly when no end of a
  relationship turns from a store into another actor or back (`compile_wellTyped_iff`); it
  always is when a second declaration is rejected.
-/
import ArchScript.Proofs.Lookup
import ArchScript.Proofs.Relationships.Exact

namespace ArchScript

/-! ## Kinds of ends -/

/-- An agent or user has the id. -/
def ActiveIn (kinds : Ident → Option ActorKind) (x : Ident) : Prop :=
  ∃ k, kinds x = some k ∧ k.isActive = true

/-- A store has the id. -/
def StoreIn (kinds : Ident → Option ActorKind) (x : Ident) : Prop :=
  ∃ k, kinds x = some k ∧ k.isStore = true

instance (kinds : Ident → Option ActorKind) (x : Ident) : Decidable (ActiveIn kinds x) :=
  decidable_of_iff ((kinds x).any ActorKind.isActive = true) (Option.any_eq_true _ _)

instance (kinds : Ident → Option ActorKind) (x : Ident) : Decidable (StoreIn kinds x) :=
  decidable_of_iff ((kinds x).any ActorKind.isStore = true) (Option.any_eq_true _ _)

/-- Both ends are agents or users. -/
def Channel.Typed (kinds : Ident → Option ActorKind) (c : Channel) : Prop :=
  ActiveIn kinds c.source ∧ ActiveIn kinds c.target

/-- One end is an agent or user, and the other is a store. -/
def DataFlow.Typed (kinds : Ident → Option ActorKind) (f : DataFlow) : Prop :=
  ActiveIn kinds f.actor ∧ StoreIn kinds f.store

instance (kinds : Ident → Option ActorKind) (c : Channel) : Decidable (c.Typed kinds) :=
  inferInstanceAs (Decidable (_ ∧ _))

instance (kinds : Ident → Option ActorKind) (f : DataFlow) : Decidable (f.Typed kinds) :=
  inferInstanceAs (Decidable (_ ∧ _))

/-- The relationship of an effect, if it has one, is well typed. -/
def Effect.Typed (kinds : Ident → Option ActorKind) : Effect → Prop
  | declareChannel c => c.Typed kinds
  | useChannel c => c.Typed kinds
  | declareFlow f => f.Typed kinds
  | useFlow f => f.Typed kinds
  | _ => True

/-- The ends of the relationship of an effect. -/
def Effect.ends : Effect → List Ident
  | declareChannel c => [c.source, c.target]
  | useChannel c => [c.source, c.target]
  | declareFlow f => [f.actor, f.store]
  | useFlow f => [f.actor, f.store]
  | _ => []

theorem Effect.typed_iff_mentions {kinds : Ident → Option ActorKind} (e : Effect) :
    e.Typed kinds ↔ (∀ x, e.channelMention? = some x → x.value.Typed kinds) ∧
      ∀ x, e.flowMention? = some x → x.value.Typed kinds := by
  cases e <;> simp [Typed, channelMention?, flowMention?, Mention.value]

/-- Every relationship of the model is well typed by the actors that its ends look up to. -/
structure SystemModel.WellTyped (m : SystemModel) : Prop where
  channels : ∀ c ∈ m.channels, c.Typed m.kind?
  dataFlows : ∀ f ∈ m.dataFlows, f.Typed m.kind?

instance (m : SystemModel) : Decidable m.WellTyped :=
  decidable_of_iff ((∀ c ∈ m.channels, c.Typed m.kind?) ∧ ∀ f ∈ m.dataFlows, f.Typed m.kind?)
    ⟨fun h => ⟨h.1, h.2⟩, fun h => ⟨h.channels, h.dataFlows⟩⟩

section Kinds

variable {old new : Ident → Option ActorKind}

/-- The actor of an id is a store before and after, or neither time. -/
def SameSide (old new : Ident → Option ActorKind) (x : Ident) : Prop :=
  ∀ j k, old x = some j → new x = some k → j.isStore = k.isStore

theorem sideIn_iff {x : Ident} {b : Bool} (h : ∃ j, old x = some j ∧ j.isStore = b)
    (hnew : ∃ k, new x = some k) :
    (∃ k, new x = some k ∧ k.isStore = b) ↔ SameSide old new x := by
  obtain ⟨j, hj, rfl⟩ := h
  obtain ⟨k, hk⟩ := hnew
  constructor
  · rintro ⟨k', hk', hside⟩ i l hi hl
    rw [hj] at hi
    rw [hk'] at hl
    cases hi
    cases hl
    exact hside.symm
  · intro hsame
    exact ⟨k, hk, (hsame j k hj hk).symm⟩

theorem activeIn_iff {x : Ident} (h : ActiveIn old x) (hnew : ∃ k, new x = some k) :
    ActiveIn new x ↔ SameSide old new x := by
  have hside : ∀ kinds : Ident → Option ActorKind,
      ActiveIn kinds x ↔ ∃ k, kinds x = some k ∧ k.isStore = false := by
    intro kinds
    simp only [ActiveIn, ActorKind.isStore_eq, Bool.not_eq_false']
  rw [hside new]
  exact sideIn_iff ((hside old).1 h) hnew

/-- A relationship that is well typed stays so exactly when its ends stay on their sides. -/
theorem Effect.typed_iff {e : Effect} (h : e.Typed old)
    (hnew : ∀ x j, old x = some j → ∃ k, new x = some k) :
    e.Typed new ↔ ∀ x ∈ e.ends, SameSide old new x := by
  have hactive : ∀ {x}, ActiveIn old x → (ActiveIn new x ↔ SameSide old new x) :=
    fun {x} hx => activeIn_iff hx (hx.elim fun j hj => hnew x j hj.1)
  have hstore : ∀ {x}, StoreIn old x → (StoreIn new x ↔ SameSide old new x) :=
    fun {x} hx => sideIn_iff hx (hx.elim fun j hj => hnew x j hj.1)
  have hchannel : ∀ {c : Channel}, c.Typed old →
      (c.Typed new ↔ ∀ x ∈ [c.source, c.target], SameSide old new x) := by
    intro c hc
    rw [List.forall_mem_cons, List.forall_mem_singleton]
    exact and_congr (hactive hc.1) (hactive hc.2)
  have hflow : ∀ {f : DataFlow}, f.Typed old →
      (f.Typed new ↔ ∀ x ∈ [f.actor, f.store], SameSide old new x) := by
    intro f hf
    rw [List.forall_mem_cons, List.forall_mem_singleton]
    exact and_congr (hactive hf.1) (hstore hf.2)
  cases e with
  | declareChannel c => exact hchannel h
  | useChannel c => exact hchannel h
  | declareFlow f => exact hflow h
  | useFlow f => exact hflow h
  | _ => simp [Effect.Typed, Effect.ends]

end Kinds

/-! ## Kinds along a walk -/

theorem kindOf_append {vs : List Visit} (ws : List Visit) {x : Ident} {j : ActorKind}
    (h : kindOf vs x = some j) : ∃ k, kindOf (vs ++ ws) x = some k := by
  induction ws using List.reverseRecOn with
  | nil =>
    rw [List.append_nil]
    exact ⟨j, h⟩
  | append_singleton ws w ih =>
    rw [← List.append_assoc, kindOf_append_singleton]
    split
    · split
      · exact ⟨_, rfl⟩
      · exact ih
    · exact ih

/-- Without a second declaration of anything the kinds that are known stay. -/
theorem kindOf_append_of_fresh {vs ws : List Visit}
    (hfresh : Throughout (OnEffects fun b e => e.Guarded fun c => c.Fresh b) vs ws) {x : Ident}
    {k : ActorKind} (h : kindOf vs x = some k) : kindOf (vs ++ ws) x = some k := by
  induction ws generalizing vs with
  | nil =>
    rw [List.append_nil]
    exact h
  | cons w ws ih =>
    obtain ⟨hw, hfresh⟩ := throughout_cons_iff.1 hfresh
    rw [List.append_cons]
    refine ih hfresh ?_
    rw [kindOf_append_singleton]
    obtain ⟨body, act⟩ := w
    cases act with
    | check c => exact h
    | effect e =>
      cases e with
      | declareActor d =>
        have hne : d.id.value ≠ x := by
          rintro rfl
          exact hw _ List.mem_cons_self (definedIn_of_kindOf h)
        simp only [Visit.declared?, hne, if_false]
        exact h
      | _ => exact h

namespace Program

variable {p : Program}

/-- Where a relationship is mentioned it is well typed. -/
theorem typed_where_mentioned {policy : Redeclaration} {s : Scope}
    (h : Passed policy [] p.visits s) {before after : List Visit} {body : BodyPath} {e : Effect}
    (hvisits : p.visits = before ++ ⟨body, .effect e⟩ :: after) : e.Typed (kindOf before) := by
  have hactive : ∀ {x}, AskedActive (fun c => c.Holds before) x → ActiveIn (kindOf before) x := by
    rintro x ⟨role, ref, rfl, hx⟩
    exact hx
  have hstore : ∀ {x}, AskedStore (fun c => c.Holds before) x → StoreIn (kindOf before) x := by
    rintro x ⟨role, ref, rfl, hx⟩
    exact hx
  have hguarded := guarded stable_holds (allHold_iff_throughout.1 h.holds) hvisits
  cases e with
  | declareChannel c => exact hguarded.imp hactive hactive
  | useChannel c => exact hguarded.imp hactive hactive
  | declareFlow f => exact hguarded.imp hactive hstore
  | useFlow f => exact hguarded.imp hactive hstore
  | _ => trivial

/-- A model is well typed when all that its program mentions fits the last declarations. -/
theorem wellTyped_iff_effects (hn : p.WellNamed) {options : ElaborationOptions} {m : SystemModel}
    (h : p.elaborate options = .ok m) :
    m.WellTyped ↔ ∀ v ∈ p.visits, ∀ e, v.act = .effect e → e.Typed (kindOf p.visits) := by
  have hkinds : m.kind? = kindOf p.visits := funext (kind?_eq hn h)
  have hchannels : (∀ c ∈ m.channels, c.Typed m.kind?) ↔
      ∀ x ∈ p.channelMentions, x.value.Typed m.kind? :=
    forall_channels_iff hn h fun x => ActiveIn m.kind? x.2.1 ∧ ActiveIn m.kind? x.2.2
  have hflows : (∀ f ∈ m.dataFlows, f.Typed m.kind?) ↔
      ∀ x ∈ p.flowMentions, x.value.Typed m.kind? :=
    forall_dataFlows_iff hn h fun x => (DataFlow.declared x.1 x.2.1 x.2.2).Typed m.kind?
  rw [hkinds] at hchannels hflows
  constructor
  · rintro ⟨h₁, h₂⟩ v hv e he
    rw [hkinds] at h₁ h₂
    refine (Effect.typed_iff_mentions e).2 ⟨fun x hx => ?_, fun x hx => ?_⟩
    · exact hchannels.1 h₁ x (mem_channelMentions_iff.2 ⟨v, hv, e, he, hx⟩)
    · exact hflows.1 h₂ x (mem_flowMentions_iff.2 ⟨v, hv, e, he, hx⟩)
  · intro htyped
    constructor
    · rw [hkinds]
      refine hchannels.2 fun x hx => ?_
      obtain ⟨v, hv, e, he, hx⟩ := mem_channelMentions_iff.1 hx
      exact ((Effect.typed_iff_mentions e).1 (htyped v hv e he)).1 x hx
    · rw [hkinds]
      refine hflows.2 fun x hx => ?_
      obtain ⟨v, hv, e, he, hx⟩ := mem_flowMentions_iff.1 hx
      exact ((Effect.typed_iff_mentions e).1 (htyped v hv e he)).2 x hx

/-- A model is well typed when the ends of its relationships are, by the last declarations,
on the sides that they had where the relationships were mentioned. -/
theorem wellTyped_iff_sameSide (hn : p.WellNamed) {options : ElaborationOptions} {m : SystemModel}
    (h : p.elaborate options = .ok m) :
    m.WellTyped ↔ ∀ before body e after, p.visits = before ++ ⟨body, .effect e⟩ :: after →
      ∀ x ∈ e.ends, SameSide (kindOf before) (kindOf p.visits) x := by
  obtain ⟨s, hs, _⟩ := exists_scope h
  have hpassed := hn.passed hs
  have hside : ∀ before body e after, p.visits = before ++ ⟨body, .effect e⟩ :: after →
      (e.Typed (kindOf p.visits) ↔
        ∀ x ∈ e.ends, SameSide (kindOf before) (kindOf p.visits) x) := by
    intro before body e after hvisits
    refine Effect.typed_iff (typed_where_mentioned hpassed hvisits) fun x j hj => ?_
    rw [hvisits]
    exact kindOf_append _ hj
  rw [wellTyped_iff_effects hn h]
  constructor
  · intro htyped before body e after hvisits
    refine (hside before body e after hvisits).1 (htyped ⟨body, .effect e⟩ ?_ e rfl)
    rw [hvisits]
    exact List.mem_append_right _ List.mem_cons_self
  · rintro hsame ⟨body, act⟩ hv e rfl
    obtain ⟨before, after, hvisits⟩ := List.append_of_mem hv
    exact (hside before body e after hvisits).2 (hsame before body e after hvisits)

/-- When second declarations are rejected, the actors keep their kinds. -/
theorem sameSide_of_reject {p : Program} {s : Scope} (h : Passed .reject [] p.visits s)
    {before after : List Visit} {v : Visit} (hvisits : p.visits = before ++ v :: after)
    (x : Ident) : SameSide (kindOf before) (kindOf p.visits) x := by
  have hall : Throughout (OnEffects fun b e => e.Guarded fun c => c.Fresh b) [] p.visits :=
    guards_visitsOf stable_fresh p 0 (h.fresh rfl)
  rw [hvisits] at hall
  obtain ⟨_, hafter⟩ := throughout_append_iff.1 hall
  rw [List.nil_append] at hafter
  intro j k hj hk
  rw [hvisits, kindOf_append_of_fresh hafter hj] at hk
  rw [Option.some.inj hk]

end Program

/-! ## Sources -/

/-- The model of a source is well typed exactly when no end of a relationship, from where
the relationship is mentioned to the end of the program, turns from a store into an agent or
user or back. When second declarations are rejected it always is. -/
theorem compile_wellTyped_iff {options : ElaborationOptions} {source : String} {m : SystemModel}
    (h : compile options source = .ok m) :
    (∃ lexemes p, tokenize source = .ok lexemes ∧
      Program.ofTokens (meaningful lexemes) = .ok p ∧
      (m.WellTyped ↔ ∀ before body e after, p.visits = before ++ ⟨body, .effect e⟩ :: after →
        ∀ x ∈ e.ends, SameSide (kindOf before) (kindOf p.visits) x)) ∧
    (options.redeclaration = .reject → m.WellTyped) := by
  obtain ⟨lexemes, p, ht, hp, hm⟩ := compile_eq_ok_iff.1 h
  have hn := wellNamed_of_source ht hp
  have hiff := Program.wellTyped_iff_sameSide hn hm
  refine ⟨⟨lexemes, p, ht, hp, hiff⟩, fun hreject => hiff.2 ?_⟩
  intro before body e after hvisits x _
  obtain ⟨s, hs, _⟩ := Program.exists_scope hm
  rw [hreject] at hs
  exact Program.sameSide_of_reject (hn.passed hs) hvisits x

/-- A source with a channel whose target becomes a user. -/
def staysActive : String :=
  "agent 'A' as a; agent 'B' as b; a -('ask')-> b; user 'B' as b;"

/-- An agent that becomes a user stays on its side. -/
theorem compile_wellTyped_iff_staysActive :
    ∃ m lexemes p, compile .default staysActive = .ok m ∧ tokenize staysActive = .ok lexemes ∧
      Program.ofTokens (meaningful lexemes) = .ok p ∧ m.kind? "b" = some .user ∧
      ∀ before body e after, p.visits = before ++ ⟨body, .effect e⟩ :: after →
        ∀ x ∈ e.ends, SameSide (kindOf before) (kindOf p.visits) x := by
  have hm : (compile .default staysActive).toOption.map
      (fun m => (decide m.WellTyped, m.kind? "b")) = some (true, some .user) := by decide +kernel
  obtain ⟨m, h, he⟩ := exists_ok_of_toOption hm
  obtain ⟨htyped, hkind⟩ := Prod.mk.inj he
  obtain ⟨⟨lexemes, p, ht, hp, hiff⟩, _⟩ := compile_wellTyped_iff h
  exact ⟨m, lexemes, p, h, ht, hp, hkind, hiff.1 (of_decide_eq_true htyped)⟩

/-- A source with a channel whose source becomes a store. -/
def becomesStore : String := "agent 'A' as a; agent 'B' as b; a -()-> b; store 'A' as a;"

/-- The channel stays where a store now is. -/
theorem becomesStore_not_wellTyped :
    ∃ m, compile .default becomesStore = .ok m ∧
      m.channels.map Channel.signature = [(.requestResponse, "a", "b")] ∧
      m.kind? "a" = some .store ∧ ¬ m.WellTyped := by
  have hm : (compile .default becomesStore).toOption.map (fun m =>
      (m.channels.map Channel.signature, m.kind? "a", decide m.WellTyped)) =
      some ([(.requestResponse, "a", "b")], some .store, false) := by decide +kernel
  obtain ⟨m, h, he⟩ := exists_ok_of_toOption hm
  obtain ⟨hchannels, he⟩ := Prod.mk.inj he
  obtain ⟨hkind, htyped⟩ := Prod.mk.inj he
  exact ⟨m, h, hchannels, hkind, of_decide_eq_false htyped⟩

end ArchScript
