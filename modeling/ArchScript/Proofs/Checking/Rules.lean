/-
  The rules of a program, read off its walk.

  Each check of a walk is judged by the visits before it: a reference by the last actor that
  was declared under its id (`kindOf`), a response by an earlier call or request between the
  same ends (`requestedIn`). `Check.Holds` says when a check is good, `Check.violation?` what
  is wrong with it otherwise, and `firstViolation` finds the first check that is not. No
  scope has a part in this.
-/
import ArchScript.Proofs.Containment.History

namespace ArchScript

/-! ## What was said before -/

/-- The actor that a visit declares. -/
def Visit.declared? (v : Visit) : Option ActorDecl :=
  match v.act with
  | .effect (.declareActor d) => some d
  | _ => none

/-- The kind in the last declaration of an actor with the id `x`. -/
def kindOf (vs : List Visit) (x : Ident) : Option ActorKind :=
  ((vs.filterMap Visit.declared?).filter (·.id.value = x)).getLast?.map (·.kind.value)

/-- The channel that an effect declares or needs. -/
def Effect.channel? : Effect → Option Channel
  | declareChannel c => some c
  | useChannel c => some c
  | _ => none

/-- A channel is placed by the effects that declare or need it. -/
theorem Effect.placed?_channel_iff {e : Effect} {id : Ident} :
    e.placed? = some ⟨.channel, id⟩ ↔ ∃ c, e.channel? = some c ∧ c.id = id := by
  cases e <;> simp [placed?, channel?]

/-- The visit is a call or request, of the kind that has responses, from `a` to `b`. -/
def Visit.requests (v : Visit) (a b : Ident) : Bool :=
  match v.act with
  | .check _ => false
  | .effect e => e.channel?.any fun c =>
      c.kind = .requestResponse && c.source = a && c.target = b

/-- A call or request from `a` to `b` is among the visits. -/
def requestedIn (vs : List Visit) (a b : Ident) : Bool := vs.any (·.requests a b)

/-- A container with the id `x` was closed. -/
def closedIn (vs : List Visit) (x : Ident) : Bool := (closings vs).any (·.id = x)

theorem kindOf_append_singleton (vs : List Visit) (v : Visit) (x : Ident) :
    kindOf (vs ++ [v]) x =
      match v.declared? with
      | some d => if d.id.value = x then some d.kind.value else kindOf vs x
      | none => kindOf vs x := by
  unfold kindOf
  rw [List.filterMap_append, List.filter_append]
  cases hv : v.declared? with
  | none => simp [hv]
  | some d => by_cases hd : d.id.value = x <;> simp [hv, hd]

/-! ## The rules -/

namespace Check

/-- A check that is good after the visits `before`. An id may be defined again. -/
def Holds (before : List Visit) : Check → Prop
  | known ref => ∃ k, kindOf before ref.value = some k
  | active _ ref => ∃ k, kindOf before ref.value = some k ∧ k.isActive = true
  | store _ ref => ∃ k, kindOf before ref.value = some k ∧ k.isStore = true
  | requested a b _ => requestedIn before a b = true
  | unused _ _ => True

/-- Where a check points: at its operand, for a response at the step. -/
def span : Check → Span
  | known ref => ref.span
  | active _ ref => ref.span
  | store _ ref => ref.span
  | requested _ _ step => step
  | unused _ ref => ref.span

/-- The code for a reference that is not good: nothing has the id, a container has it, or
its actor is of the wrong kind. -/
def referenceCode (before : List Visit) (x : Ident) : ErrorCode :=
  match kindOf before x with
  | some _ => .invalidEndpoint
  | none => if closedIn before x then .notAnActor else .undefinedIdentifier

/-- The code of a check that does not hold. -/
def code (before : List Visit) : Check → ErrorCode
  | known ref => referenceCode before ref.value
  | active _ ref => referenceCode before ref.value
  | store _ ref => referenceCode before ref.value
  | requested _ _ _ => .missingRequest
  | unused _ _ => .duplicateDefinition

/-- A reference to no actor. -/
def missing (before : List Visit) (ref : Spanned Ident) : Violation :=
  if closedIn before ref.value then .containerAsActor ref else .undefined ref

/-- What is wrong with a check after the visits `before`. -/
def violation? (before : List Visit) : Check → Option Violation
  | known ref =>
    match kindOf before ref.value with
    | some _ => none
    | none => some (missing before ref)
  | active role ref =>
    match kindOf before ref.value with
    | some k => if k.isActive then none else some (.storeAsEnd ref role)
    | none => some (missing before ref)
  | store role ref =>
    match kindOf before ref.value with
    | some k => if k.isStore then none else some (.notAStore ref k role)
    | none => some (missing before ref)
  | requested a b step => if requestedIn before a b then none else some (.missingRequest a b step)
  | unused _ _ => none

theorem violation?_eq_none_iff {before : List Visit} {c : Check} :
    c.violation? before = none ↔ c.Holds before := by
  cases c with
  | known ref =>
    simp only [violation?, Holds]
    cases kindOf before ref.value <;> simp
  | active role ref =>
    simp only [violation?, Holds]
    cases kindOf before ref.value <;> simp
  | store role ref =>
    simp only [violation?, Holds]
    cases kindOf before ref.value <;> simp
  | requested a b step => simp [violation?, Holds]
  | unused what ref => simp [violation?, Holds]

theorem diagnostic_missing (before : List Visit) (ref : Spanned Ident)
    (h : kindOf before ref.value = none) :
    (missing before ref).diagnostic.code = some (referenceCode before ref.value) ∧
      (missing before ref).diagnostic.labels = [⟨ref.span, (missing before ref).note, true⟩] := by
  unfold missing referenceCode
  rw [h]
  by_cases hc : closedIn before ref.value <;> simp [hc] <;> exact ⟨rfl, rfl⟩

/-- The diagnostic of a violation has the code of its check and one label, which points
where the check does. -/
theorem diagnostic_of_violation? {before : List Visit} {c : Check} {w : Violation}
    (h : c.violation? before = some w) : w.diagnostic.code = some (c.code before) ∧
      w.diagnostic.labels = [⟨c.span, w.note, true⟩] := by
  cases c with
  | known ref =>
    simp only [violation?] at h
    split at h
    · cases h
    · next hk =>
      cases h
      exact diagnostic_missing before ref hk
  | active role ref =>
    simp only [violation?] at h
    split at h
    · next k hk =>
      split at h
      · cases h
      · cases h
        simp only [code, referenceCode, hk]
        exact ⟨rfl, rfl⟩
    · next hk =>
      cases h
      exact diagnostic_missing before ref hk
  | store role ref =>
    simp only [violation?] at h
    split at h
    · next k hk =>
      split at h
      · cases h
      · cases h
        simp only [code, referenceCode, hk]
        exact ⟨rfl, rfl⟩
    · next hk =>
      cases h
      exact diagnostic_missing before ref hk
  | requested a b step =>
    simp only [violation?] at h
    split at h
    · cases h
    · cases h
      exact ⟨rfl, rfl⟩
  | unused what ref => cases h

end Check

/-! ## The first violation -/

/-- What is wrong with a visit; only a check can be wrong. -/
def Visit.violation? (before : List Visit) (v : Visit) : Option Violation :=
  match v.act with
  | .check c => c.violation? before
  | .effect _ => none

/-- The first violation of a walk that goes on after the visits `before`. -/
def firstViolation (before : List Visit) : List Visit → Option Violation
  | [] => none
  | v :: vs => (v.violation? before).or (firstViolation (before ++ [v]) vs)

/-- Every check of a walk that goes on after the visits `before` holds where it stands. -/
def AllHold (before vs : List Visit) : Prop :=
  ∀ pre body c post, vs = pre ++ ⟨body, .check c⟩ :: post → c.Holds (before ++ pre)

theorem Visit.violation?_eq_none_iff {before : List Visit} {v : Visit} :
    v.violation? before = none ↔ ∀ c, v.act = .check c → c.Holds before := by
  unfold Visit.violation?
  split
  · next c hc =>
    rw [Check.violation?_eq_none_iff, hc]
    constructor
    · rintro h _ ⟨⟩
      exact h
    · intro h
      exact h c rfl
  · next e he =>
    rw [he]
    refine ⟨fun _ c hc => ?_, fun _ => rfl⟩
    cases hc

theorem Visit.violation?_eq_some_iff {before : List Visit} {v : Visit} {w : Violation} :
    v.violation? before = some w ↔ ∃ c, v.act = .check c ∧ c.violation? before = some w := by
  unfold Visit.violation?
  split
  · next c hc =>
    rw [hc]
    constructor
    · intro h
      exact ⟨c, rfl, h⟩
    · rintro ⟨_, ⟨⟩, h⟩
      exact h
  · next e he =>
    rw [he]
    constructor
    · intro h
      cases h
    · rintro ⟨c, hc, _⟩
      cases hc

theorem allHold_nil (before : List Visit) : AllHold before [] := by
  intro pre body c post h
  cases pre <;> cases h

theorem allHold_cons_iff {before vs : List Visit} {v : Visit} :
    AllHold before (v :: vs) ↔
      (∀ c, v.act = .check c → c.Holds before) ∧ AllHold (before ++ [v]) vs := by
  constructor
  · intro h
    refine ⟨fun c hc => ?_, fun pre body c post hvs => ?_⟩
    · obtain ⟨body, act⟩ := v
      cases hc
      have hfirst := h [] body c vs rfl
      rw [List.append_nil] at hfirst
      exact hfirst
    · rw [List.append_assoc]
      exact h (v :: pre) body c post (hvs ▸ rfl)
  · rintro ⟨hv, hvs⟩ pre body c post h
    cases pre with
    | nil =>
      obtain ⟨rfl, rfl⟩ := List.cons.inj h
      rw [List.append_nil]
      exact hv c rfl
    | cons u pre =>
      obtain ⟨rfl, ht⟩ := List.cons.inj h
      rw [List.append_cons]
      exact hvs pre body c post ht

/-- There is no violation when every check holds. -/
theorem firstViolation_eq_none_iff {before vs : List Visit} :
    firstViolation before vs = none ↔ AllHold before vs := by
  induction vs generalizing before with
  | nil => exact ⟨fun _ => allHold_nil before, fun _ => rfl⟩
  | cons v vs ih =>
    rw [firstViolation, Option.or_eq_none_iff, ih, Visit.violation?_eq_none_iff,
      allHold_cons_iff]

/-- The first violation is that of a check before which all others hold. -/
theorem firstViolation_eq_some_iff {before vs : List Visit} {w : Violation} :
    firstViolation before vs = some w ↔ ∃ pre body c post,
      vs = pre ++ ⟨body, .check c⟩ :: post ∧ AllHold before pre ∧
        c.violation? (before ++ pre) = some w := by
  induction vs generalizing before with
  | nil =>
    constructor
    · intro h
      cases h
    · rintro ⟨pre, body, c, post, h, _⟩
      cases pre <;> cases h
  | cons v vs ih =>
    rw [firstViolation, Option.or_eq_some_iff, ih, Visit.violation?_eq_none_iff,
      Visit.violation?_eq_some_iff]
    constructor
    · rintro (⟨c, hc, hw⟩ | ⟨hv, pre, body, c, post, rfl, hpre, hw⟩)
      · obtain ⟨body, act⟩ := v
        cases hc
        refine ⟨[], body, c, vs, rfl, allHold_nil before, ?_⟩
        rw [List.append_nil]
        exact hw
      · rw [← List.append_cons] at hw
        exact ⟨v :: pre, body, c, post, rfl, allHold_cons_iff.2 ⟨hv, hpre⟩, hw⟩
    · rintro ⟨pre, body, c, post, h, hpre, hw⟩
      cases pre with
      | nil =>
        obtain ⟨rfl, rfl⟩ := List.cons.inj h
        rw [List.append_nil] at hw
        exact Or.inl ⟨c, rfl, hw⟩
      | cons u pre =>
        obtain ⟨rfl, rfl⟩ := List.cons.inj h
        obtain ⟨hv, hpre⟩ := allHold_cons_iff.1 hpre
        rw [List.append_cons] at hw
        exact Or.inr ⟨hv, pre, body, c, post, rfl, hpre, hw⟩

end ArchScript
