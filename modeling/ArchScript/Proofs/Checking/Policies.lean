/-
  Checks under either policy.

  A walk that ends without a violation passed all its checks, whether it replaces earlier
  definitions or rejects them (`Passed.holds`). If it rejects them, nothing was defined
  before it is defined (`Passed.fresh`), so what is known of an actor stays true.
-/
import ArchScript.Proofs.Checking.Exact
import ArchScript.Proofs.Checking.Guards

namespace ArchScript

/-! ## Definitions -/

/-- What an effect defines; a container is defined from its head on. -/
def Effect.defined? : Effect → Option Member
  | declareActor d => some ⟨.actor, d.id.value⟩
  | annotate d => some ⟨MemberKind.annotation, d.id.value⟩
  | openBody _ head => some ⟨.container, head.id.value⟩
  | _ => none

/-- An actor, annotation or container was defined. -/
def DefinedIn (vs : List Visit) (m : Member) : Prop :=
  ∃ v ∈ vs, ∃ e, v.act = .effect e ∧ e.defined? = some m

theorem definedIn_append_check (vs : List Visit) (body : BodyPath) (c : Check) (m : Member) :
    DefinedIn (vs ++ [⟨body, .check c⟩]) m ↔ DefinedIn vs m := by
  simp [DefinedIn]

theorem definedIn_append_effect (vs : List Visit) (body : BodyPath) (e : Effect) (m : Member) :
    DefinedIn (vs ++ [⟨body, .effect e⟩]) m ↔ e.defined? = some m ∨ DefinedIn vs m := by
  simp [DefinedIn, or_and_right, exists_or, or_comm]

/-- A scope notes what effects define. -/
theorem Scope.mem_firstDefined_apply (e : Effect) (s : Scope) (m : Member) :
    m ∈ (e.apply s).firstDefined.keys ↔ e.defined? = some m ∨ m ∈ s.firstDefined.keys := by
  cases e with
  | declareActor d =>
    refine Table.mem_keys_insertIfNew.trans (or_congr_left ?_)
    exact eq_comm.trans Option.some_inj.symm
  | annotate d =>
    refine Table.mem_keys_insertIfNew.trans (or_congr_left ?_)
    exact eq_comm.trans Option.some_inj.symm
  | openBody path head =>
    refine Table.mem_keys_insertIfNew.trans (or_congr_left ?_)
    exact eq_comm.trans Option.some_inj.symm
  | setNote target text =>
    rw [Effect.apply, updateActor_frame firstDefined (fun _ _ => rfl)]
    simp [Effect.defined?]
  | assign target refs =>
    rw [Effect.apply, updateActor_frame firstDefined (fun _ _ => rfl)]
    simp [Effect.defined?]
  | useChannel c =>
    rw [Effect.useChannel_frame firstDefined (fun _ _ => rfl)]
    simp [Effect.defined?]
  | useFlow f =>
    rw [Effect.useFlow_frame firstDefined (fun _ _ => rfl)]
    simp [Effect.defined?]
  | _ =>
    simp only [Effect.defined?, reduceCtorEq, false_or]
    rfl

/-- The kinds of actors are those of the defined ones. -/
theorem definedIn_of_kindOf {vs : List Visit} {x : Ident} {k : ActorKind}
    (h : kindOf vs x = some k) : DefinedIn vs ⟨.actor, x⟩ := by
  obtain ⟨d, hd, _⟩ := Option.map_eq_some_iff.1 h
  obtain ⟨hd, hid⟩ := List.mem_filter.1 (List.mem_of_getLast? hd)
  obtain ⟨v, hv, hd⟩ := List.mem_filterMap.1 hd
  unfold Visit.declared? at hd
  split at hd
  · next hact =>
    cases hd
    refine ⟨v, hv, _, hact, ?_⟩
    rw [Effect.defined?, of_decide_eq_true hid]
  · cases hd

/-! ## Checks that pass -/

/-- A definition of what was not defined before. -/
def Check.Fresh (before : List Visit) : Check → Prop
  | unused what ref => ∀ m ∈ what.rivals ref.value, ¬ DefinedIn before m
  | _ => True

theorem stable_holds : Stable fun before c => c.Holds before := by
  intro before body c c' h
  have hkind : ∀ x, kindOf (before ++ [⟨body, .check c'⟩]) x = kindOf before x :=
    fun x => kindOf_append_singleton before _ x
  cases c with
  | known ref =>
    obtain ⟨k, hk⟩ := h
    exact ⟨k, (hkind _).trans hk⟩
  | active role ref =>
    obtain ⟨k, hk, hactive⟩ := h
    exact ⟨k, (hkind _).trans hk, hactive⟩
  | store role ref =>
    obtain ⟨k, hk, hstore⟩ := h
    exact ⟨k, (hkind _).trans hk, hstore⟩
  | requested a b step =>
    rw [Check.Holds, requestedIn, List.any_append, Bool.or_eq_true]
    exact Or.inl h
  | unused what ref => trivial

theorem stable_fresh : Stable fun before c => c.Fresh before := by
  intro before body c c' h
  cases c with
  | unused what ref =>
    intro m hm
    rw [definedIn_append_check]
    exact h m hm
  | _ => trivial

/-- A check that passes when earlier definitions are rejected passes when they are replaced. -/
theorem Check.test_replace {policy : Redeclaration} {s : Scope} {c : Check}
    (h : c.test policy s = .ok ()) : c.test .replace s = .ok () := by
  cases c with
  | unused what ref => rfl
  | _ => exact h

/-- A definition passes the strict check when the scope has noted none of its rivals. -/
theorem Check.not_mem_firstDefined {s : Scope} {what : DefinitionKind} {ref : Spanned Ident}
    (h : (Check.unused what ref).test .reject s = .ok ()) :
    ∀ m ∈ what.rivals ref.value, m ∉ s.firstDefined.keys := by
  simp only [test, Elaboration.checkNew] at h
  split at h
  · cases h
  · next hnone =>
    intro m hm hmem
    obtain ⟨span, hspan⟩ := Table.mem_keys_iff.1 hmem
    rw [List.findSome?_eq_none_iff] at hnone
    rw [hnone m hm] at hspan
    cases hspan

/-- What a walk that goes on after `before` and ends in the scope `s` has shown. -/
structure Passed (policy : Redeclaration) (before vs : List Visit) (s : Scope) : Prop where
  knows : Knows (before ++ vs) s
  holds : AllHold before vs
  fresh : policy = .reject → Throughout (OnChecks fun b c => c.Fresh b) before vs

/-- Performing a walk passes its checks. -/
theorem passed_perform {policy : Redeclaration} {before vs : List Visit} {s s' : Scope}
    (h : Knows before s) (hdef : ∀ m, m ∈ s.firstDefined.keys ↔ DefinedIn before m)
    (hn : WordSources (before ++ vs)) (hs : perform policy (vs.map Visit.act) s = .ok s') :
    Passed policy before vs s' := by
  induction vs generalizing before s with
  | nil =>
    cases hs
    refine ⟨?_, allHold_nil before, fun _ => throughout_nil⟩
    rw [List.append_nil]
    exact h
  | cons v vs ih =>
    obtain ⟨body, act⟩ := v
    rw [List.append_cons] at hn
    cases act with
    | check c =>
      obtain ⟨_, htest, hs⟩ := Reader.bind_eq_ok.1 hs
      have hdef' : ∀ m, m ∈ s.firstDefined.keys ↔ DefinedIn (before ++ [⟨body, .check c⟩]) m :=
        fun m => (hdef m).trans (definedIn_append_check before body c m).symm
      obtain ⟨hknows, hholds, hfresh⟩ := ih (h.check body c) hdef' hn hs
      have hc : c.Holds before := by
        have houtcome := Check.test_replace htest
        rw [h.test (wordSources_append_iff.1 hn).1] at houtcome
        rw [← Check.violation?_eq_none_iff]
        cases hv : c.violation? before with
        | none => rfl
        | some w =>
          rw [hv] at houtcome
          cases houtcome
      refine ⟨?_, allHold_cons_iff.2 ⟨?_, hholds⟩, fun hpolicy => ?_⟩
      · rw [List.append_cons]
        exact hknows
      · rintro _ ⟨⟩
        exact hc
      · refine throughout_cons_iff.2 ⟨?_, hfresh hpolicy⟩
        subst hpolicy
        cases c with
        | unused what ref =>
          intro m hm hmem
          exact Check.not_mem_firstDefined htest m hm ((hdef m).2 hmem)
        | _ => trivial
    | effect e =>
      have hdef' : ∀ m, m ∈ (e.apply s).firstDefined.keys ↔
          DefinedIn (before ++ [⟨body, .effect e⟩]) m := by
        intro m
        rw [Scope.mem_firstDefined_apply, hdef, definedIn_append_effect]
      obtain ⟨hknows, hholds, hfresh⟩ := ih (h.effect body e) hdef' hn hs
      refine ⟨?_, allHold_cons_iff.2 ⟨?_, hholds⟩, fun hpolicy => ?_⟩
      · rw [List.append_cons]
        exact hknows
      · rintro _ ⟨⟩
      · exact throughout_cons_iff.2 ⟨trivial, hfresh hpolicy⟩

/-- The walk of a program that is elaborated has passed. -/
theorem Program.WellNamed.passed {p : Program} (h : p.WellNamed) {policy : Redeclaration}
    {s : Scope} (hs : perform policy (p.visits.map Visit.act) .empty = .ok s) :
    Passed policy [] p.visits s := by
  refine passed_perform Knows.empty (fun m => ?_) h.wordSources hs
  simp [DefinedIn, Scope.empty, Table.keys, Table.empty]

end ArchScript
