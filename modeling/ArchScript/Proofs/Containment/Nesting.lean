/-
  Bodies nest, and no body is opened twice.

  `Nests st vs st'`: a walk that begins inside the open bodies `st`, innermost first, ends
  inside `st'`; every visit happens in the innermost open body and only that one is closed.
  `nests_visits` and `nodup_opened_visits` say both of every program, by induction over its
  statements; a body below the statement with index `i` has a path that ends in `i` and the
  path of the body around. `closesBelow_visits`: a body is closed from the one around it.
-/
import ArchScript.Proofs.Elaboration.Walk
import Mathlib.Data.List.Nodup

namespace ArchScript

/-! ## Open bodies -/

/-- The path of the body that an act opens or closes. -/
def Act.path? : Act → Option BodyPath
  | .effect (.openBody path _) => some path
  | .effect (.closeBody path _) => some path
  | _ => none

/-- The innermost of the open bodies, or the program. -/
def innermost (st : List BodyPath) : BodyPath := st.headD []

/-- A visit inside the open bodies `st` and the bodies that are open after it. -/
inductive Visit.Moves : Visit → List BodyPath → List BodyPath → Prop where
  | stays {v st} (body : v.body = innermost st) (act : v.act.path? = none) : Moves v st st
  | opens {body st path head} (body_eq : body = innermost st) :
    Moves ⟨body, .effect (.openBody path head)⟩ st (path :: st)
  | closes {body st path head} (body_eq : body = innermost st) :
    Moves ⟨body, .effect (.closeBody path head)⟩ (path :: st) st

/-- Visits one after the other. -/
def Nests : List BodyPath → List Visit → List BodyPath → Prop
  | st, [], st' => st = st'
  | st, v :: vs, st' => ∃ mid, v.Moves st mid ∧ Nests mid vs st'

theorem Nests.append {vs ws : List Visit} {st mid st' : List BodyPath} (hv : Nests st vs mid)
    (hw : Nests mid ws st') : Nests st (vs ++ ws) st' := by
  induction vs generalizing st with
  | nil =>
    cases hv
    exact hw
  | cons v vs ih =>
    obtain ⟨next, hm, hv⟩ := hv
    exact ⟨next, hm, ih hv⟩

theorem nests_map_mk {acts : List Act} (h : ∀ a ∈ acts, a.path? = none) (st : List BodyPath) :
    Nests st (acts.map (Visit.mk (innermost st))) st := by
  induction acts with
  | nil => rfl
  | cons a acts ih =>
    rw [List.forall_mem_cons] at h
    exact ⟨st, .stays rfl h.1, ih h.2⟩

/-! ## The acts of a flat statement -/

theorem Act.Relates.path? {a : Act} (h : a.Relates) : a.path? = none := by
  cases a with
  | check c => rfl
  | effect e =>
    cases e with
    | openBody path head => cases h
    | closeBody path head => cases h
    | _ => rfl

/-- Only a container opens or closes a body. -/
theorem path?_acts (x : Statement) : ∀ a ∈ x.acts, a.path? = none := by
  cases x with
  | call d => exact fun a ha => (d.relates_acts a ha).path?
  | flow d => exact fun a ha => (d.relates_acts a ha).path?
  | scenario d => exact fun a ha => (d.relates_acts a ha).path?
  | container head inner => simp [Statement.acts]
  | _ =>
    simp [Statement.acts, ActorDecl.acts, NoteDecl.acts, Assignment.acts, AnnotationDef.acts,
      Act.path?]

/-! ## Programs nest -/

/-- Statements leave as many bodies open as they found. -/
theorem nests_visitsOf (xs : List (Spanned Statement)) (st : List BodyPath) (i : Nat) :
    Nests st (visitsOf (innermost st) i xs) st := by
  induction xs using Program.induction generalizing st i with
  | nil => rfl
  | flat x span xs hx ih =>
    rw [visitsOf_flat hx]
    exact (nests_map_mk (path?_acts x) st).append (ih st (i + 1))
  | container head inner span xs ih₁ ih₂ =>
    rw [visitsOf_container]
    have hbody := ih₁ ((i :: innermost st) :: st) 0
    have hclose : Nests ((i :: innermost st) :: st)
        (⟨innermost st, .effect (.closeBody (i :: innermost st) head)⟩ ::
          visitsOf (innermost st) (i + 1) xs) st := ⟨st, .closes rfl, ih₂ st (i + 1)⟩
    exact ⟨st, .stays rfl rfl, _, .opens rfl, hbody.append hclose⟩

theorem nests_visits (p : Program) : Nests [] p.visits [] := nests_visitsOf p [] 0

/-! ## Bodies are closed from around -/

/-- A visit that closes a body happens in the body around it. -/
def Visit.ClosesBelow (v : Visit) : Prop :=
  ∀ path head, v.act = .effect (.closeBody path head) → ∃ i, path = i :: v.body

theorem Visit.closesBelow_of_path? {v : Visit} (h : v.act.path? = none) : v.ClosesBelow := by
  intro path head hact
  rw [hact] at h
  cases h

theorem closesBelow_visitsOf (xs : List (Spanned Statement)) (body : BodyPath) (i : Nat) :
    ∀ v ∈ visitsOf body i xs, v.ClosesBelow := by
  induction xs using Program.induction generalizing body i with
  | nil => simp [visitsOf]
  | flat x span xs hx ih =>
    rw [visitsOf_flat hx, List.forall_mem_append, List.forall_mem_map]
    exact ⟨fun a ha => Visit.closesBelow_of_path? (path?_acts x a ha), ih body (i + 1)⟩
  | container head inner span xs ih₁ ih₂ =>
    rw [visitsOf_container, List.forall_mem_cons, List.forall_mem_cons, List.forall_mem_append,
      List.forall_mem_cons]
    refine ⟨Visit.closesBelow_of_path? rfl, ?_, ih₁ (i :: body) 0, ?_, ih₂ body (i + 1)⟩
    · intro path head' hact
      cases hact
    · intro path head' hact
      cases hact
      exact ⟨i, rfl⟩

theorem closesBelow_visits (p : Program) : ∀ v ∈ p.visits, v.ClosesBelow :=
  closesBelow_visitsOf p [] 0

/-! ## Bodies are opened once -/

/-- The body that a visit opens. -/
def Visit.opened? (v : Visit) : Option BodyPath :=
  match v.act with
  | .effect (.openBody path _) => some path
  | _ => none

/-- The bodies that a walk opens, in order. -/
def opened (vs : List Visit) : List BodyPath := vs.filterMap Visit.opened?

theorem opened_append (vs ws : List Visit) : opened (vs ++ ws) = opened vs ++ opened ws :=
  List.filterMap_append

theorem Visit.opened?_eq_none {v : Visit} (h : v.act.path? = none) : v.opened? = none := by
  obtain ⟨body, act⟩ := v
  cases act with
  | check c => rfl
  | effect e =>
    cases e with
    | openBody path head => cases h
    | _ => rfl

theorem opened_map_mk {acts : List Act} (h : ∀ a ∈ acts, a.path? = none) (body : BodyPath) :
    opened (acts.map (Visit.mk body)) = [] := by
  refine List.filterMap_eq_nil_iff.2 fun v hv => ?_
  obtain ⟨a, ha, rfl⟩ := List.mem_map.1 hv
  exact Visit.opened?_eq_none (h a ha)

/-- Two statements of one body have no path below them in common. -/
theorem eq_of_cons_suffix {i j : Nat} {body path : BodyPath} (hi : i :: body <:+ path)
    (hj : j :: body <:+ path) : i = j := by
  have h := List.suffix_of_suffix_length_le hi hj (by simp)
  have he := h.eq_of_length (by simp)
  exact (List.cons.inj he).1

/-- The bodies that statements open lie below them. -/
theorem suffix_of_mem_opened (xs : List (Spanned Statement)) (body : BodyPath) (i : Nat) :
    ∀ path ∈ opened (visitsOf body i xs), ∃ j, i ≤ j ∧ j :: body <:+ path := by
  induction xs using Program.induction generalizing body i with
  | nil => simp [visitsOf, opened]
  | flat x span xs hx ih =>
    rw [visitsOf_flat hx, opened_append, opened_map_mk (path?_acts x), List.nil_append]
    intro path hpath
    obtain ⟨j, hj, hs⟩ := ih body (i + 1) path hpath
    exact ⟨j, by omega, hs⟩
  | container head inner span xs ih₁ ih₂ =>
    intro path hpath
    rw [visitsOf_container] at hpath
    simp only [opened, List.filterMap_cons, Visit.opened?, List.filterMap_append, List.mem_cons,
      List.mem_append] at hpath
    rcases hpath with rfl | hpath | hpath
    · exact ⟨i, Nat.le_refl i, List.suffix_refl _⟩
    · obtain ⟨j, _, hs⟩ := ih₁ (i :: body) 0 path hpath
      exact ⟨i, Nat.le_refl i, (List.suffix_cons j (i :: body)).trans hs⟩
    · obtain ⟨j, hj, hs⟩ := ih₂ body (i + 1) path hpath
      exact ⟨j, by omega, hs⟩

theorem nodup_opened_visitsOf (xs : List (Spanned Statement)) (body : BodyPath) (i : Nat) :
    (opened (visitsOf body i xs)).Nodup := by
  induction xs using Program.induction generalizing body i with
  | nil => exact List.nodup_nil
  | flat x span xs hx ih =>
    rw [visitsOf_flat hx, opened_append, opened_map_mk (path?_acts x), List.nil_append]
    exact ih body (i + 1)
  | container head inner span xs ih₁ ih₂ =>
    have hinner := suffix_of_mem_opened inner (i :: body) 0
    have hrest := suffix_of_mem_opened xs body (i + 1)
    rw [visitsOf_container]
    simp only [opened, List.filterMap_cons, Visit.opened?, List.filterMap_append]
    rw [List.nodup_cons, List.mem_append, List.nodup_append]
    refine ⟨?_, ih₁ (i :: body) 0, ih₂ body (i + 1), ?_⟩
    · rintro (hmem | hmem)
      · -- the path of a body inside is longer
        obtain ⟨j, _, hs⟩ := hinner _ hmem
        have hlen := hs.length_le
        simp only [List.length_cons] at hlen
        omega
      · obtain ⟨j, hj, hs⟩ := hrest _ hmem
        have := eq_of_cons_suffix (List.suffix_refl (i :: body)) hs
        omega
    · rintro path hp _ hq rfl
      obtain ⟨_, _, hs⟩ := hinner path hp
      obtain ⟨j, hj, hs'⟩ := hrest path hq
      have := eq_of_cons_suffix ((List.suffix_cons _ (i :: body)).trans hs) hs'
      omega

theorem nodup_opened_visits (p : Program) : (opened p.visits).Nodup :=
  nodup_opened_visitsOf p [] 0

/-- No body is the program itself. -/
theorem nil_not_mem_opened_visits (p : Program) : [] ∉ opened p.visits := by
  intro h
  obtain ⟨j, _, hs⟩ := suffix_of_mem_opened p [] 0 [] h
  have hlen := hs.length_le
  simp only [List.length_cons, List.length_nil] at hlen
  omega

end ArchScript
