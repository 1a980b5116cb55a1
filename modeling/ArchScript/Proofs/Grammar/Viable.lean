/-
  Where tokens stop being the beginning of a program.

  Tokens are viable if some program begins with them, which is when an agenda is left after
  them (`viable_iff`). A source that is not a program has a longest viable beginning. The
  reader names the token after it, or says that the source is incomplete if there is none
  (`ofTokens_error_exact`). But it is bound to a form only by the tokens that tell it: a name
  where a statement or step may begin, a dash after it, and a comma after a reference are
  given back (`Unbound`), and the first of them is named instead.
-/
import ArchScript.Proofs.Grammar.Exact
import ArchScript.Proofs.Grammar.Faults

namespace ArchScript

open Agenda

/-! ## Beginnings of programs -/

/-- The tokens are the beginning of a source that is read as a program. -/
def Viable (us : List Token) : Prop :=
  ∃ lexemes p, us <+: spelled lexemes ∧ Program.ofTokens (meaningful lexemes) = .ok p

theorem exists_spelled (us : List Token) : ∃ lexemes, spelled lexemes = us := by
  refine ⟨us.map fun t => ⟨.token t, .zero⟩, ?_⟩
  unfold spelled
  rw [List.filterMap_map]
  exact List.filterMap_some

theorem fits_program : Fits [.program] := ⟨rfl, trivial⟩

/-- A program begins with tokens when they leave an agenda. -/
theorem viable_iff {us : List Token} : Viable us ↔ ∃ c, run [.program] us = some c := by
  constructor
  · rintro ⟨lexemes, p, ⟨more, hmore⟩, hp⟩
    obtain ⟨d, hd, _⟩ := Reader.readProgram_ok hp
    rw [values_meaningful, ← hmore, run_append] at hd
    obtain ⟨c, hc, _⟩ := Option.bind_eq_some_iff.1 hd
    exact ⟨c, hc⟩
  · rintro ⟨c, hc⟩
    obtain ⟨d, hd, hdone⟩ := exists_completion (fits_program.run hc)
    obtain ⟨lexemes, hlexemes⟩ := exists_spelled (us ++ filling c)
    have hrun : run [.program] (spelled lexemes) = some d := by
      rw [hlexemes, run_append_of_eq hc]
      exact hd
    cases hp : Program.ofTokens (meaningful lexemes) with
    | ok p => exact ⟨lexemes, p, hlexemes ▸ List.prefix_append us _, hp⟩
    | error f =>
      -- the completed tokens are done, so the reader cannot halt in them
      obtain ⟨_, front, look, post, e, hus, _, he, _, hend, hnext⟩ :=
        Reader.readProgram_error (List.suffix_refl _) hp
      rw [values_meaningful, ← List.append_assoc] at hus
      rw [hus, run_append_of_eq he] at hrun
      cases post with
      | nil =>
        cases hrun
        exact absurd hdone (hend rfl)
      | cons t post =>
        rw [run_cons, hnext t rfl] at hrun
        cases hrun

theorem Viable.of_append {us vs : List Token} (h : Viable (us ++ vs)) : Viable us := by
  obtain ⟨lexemes, p, hprogram, hp⟩ := h
  exact ⟨lexemes, p, (List.prefix_append us vs).trans hprogram, hp⟩

theorem viable_of_run {us : List Token} {c : Agenda} (h : run [.program] us = some c) :
    Viable us := viable_iff.2 ⟨c, h⟩

/-- The last token of tokens that leave an agenda. -/
theorem exists_step_of_run {c d : Agenda} {us : List Token} {t : Token}
    (h : run c (us ++ [t]) = some d) : ∃ mid, run c us = some mid ∧ step mid t = some d := by
  rw [run_append] at h
  obtain ⟨mid, hmid, h⟩ := Option.bind_eq_some_iff.1 h
  rw [run_cons] at h
  obtain ⟨e, he, h⟩ := Option.bind_eq_some_iff.1 h
  cases h
  exact ⟨mid, hmid, he⟩

/-- Tokens go on with one token exactly when the agenda that they leave does. -/
theorem viable_append_singleton_iff {us : List Token} {c : Agenda} {t : Token}
    (h : run [.program] us = some c) : Viable (us ++ [t]) ↔ step c t ≠ none := by
  rw [viable_iff, run_append_of_eq h, run_cons]
  cases step c t <;> simp

/-! ## Tokens that are given back -/

/-- The tokens `look` at the end of `us` by which the reader is not bound to a form: a name
that may be followed by a dash, a name and a dash, a comma, a comma and an `@`. -/
inductive Unbound : List Token → List Token → Prop
  | name {front : List Token} {x : Ident}
    (h : Viable (front ++ [.identifier x, .sign .dash])) :
    Unbound (front ++ [.identifier x]) [.identifier x]
  | dash (front : List Token) (x : Ident) :
    Unbound (front ++ [.identifier x, .sign .dash]) [.identifier x, .sign .dash]
  | comma (front : List Token) : Unbound (front ++ [.sign .comma]) [.sign .comma]
  | commaAt (front : List Token) :
    Unbound (front ++ [.sign .comma, .sign .at]) [.sign .comma, .sign .at]

theorem Unbound.suffix {us look : List Token} (h : Unbound us look) : look <:+ us := by
  cases h <;> exact List.suffix_append _ _

theorem Unbound.length_pos {us look : List Token} (h : Unbound us look) : 0 < look.length := by
  cases h <;> simp

/-- A slot at which nothing is given back and that no dash fills. -/
def Slot.Plain (s : Slot) : Prop := s.pending = 0 ∧ s.take? (.sign .dash) = none

instance (s : Slot) : Decidable s.Plain := inferInstanceAs (Decidable (_ ∧ _))

namespace Agenda

/-- Only the first slot may be one at which tokens are given back, and no slot is a comma. -/
structure Settled (c : Agenda) : Prop where
  plain : ∀ s ∈ c.tail, s.Plain
  noComma : .token (.sign .comma) ∉ c

variable {s a : Slot} {c d new : Agenda} {t : Token} {us : List Token}

theorem settled_begins {kind : BlockItem} (h : Slot.begins kind t = some new) :
    Settled new ∧ new ≠ [] := by
  unfold Slot.begins at h
  split at h
  case h_9 =>
    split at h <;> cases h
    exact ⟨⟨by decide, by decide⟩, by decide⟩
  all_goals cases h
  all_goals exact ⟨⟨by decide, by decide⟩, by decide⟩

theorem Settled.append (h : Settled c) (hne : c ≠ []) (hd : ∀ s ∈ d, s.Plain)
    (hcomma : .token (.sign .comma) ∉ d) : Settled (c ++ d) := by
  refine ⟨?_, List.not_mem_append h.noComma hcomma⟩
  rw [List.tail_append_of_ne_nil hne]
  exact List.forall_mem_append.2 ⟨h.plain, hd⟩

theorem settled_take (h : s.take? t = some new) : Settled new := by
  cases s with
  | item kind => exact (settled_begins h).1
  | block kind =>
    obtain ⟨new, hnew, rfl⟩ := Option.map_eq_some_iff.1 h
    obtain ⟨hsettled, hne⟩ := settled_begins hnew
    cases kind <;> exact hsettled.append hne (by decide) (by decide)
  | program =>
    obtain ⟨new, hnew, rfl⟩ := Option.map_eq_some_iff.1 h
    obtain ⟨hsettled, hne⟩ := settled_begins hnew
    exact hsettled.append hne (by decide) (by decide)
  | _ =>
    simp only [Slot.take?] at h
    split at h <;> cases h <;> exact ⟨by decide, by decide⟩

/-- A step of a settled agenda: the slot that takes the token, what is left of it, and the
slots below, at which nothing is given back. -/
theorem Settled.exists_take (h : Settled c) (hstep : step c t = some d) :
    ∃ s new below, s.take? t = some new ∧ d = new ++ below ∧ (∀ x ∈ below, x ∈ c ∧ x.Plain) ∧
      s ∈ c ∧ (s.pending ≠ 0 → c.head? = some s) := by
  obtain ⟨skipped, s, below, new, rfl, htake, rfl⟩ := Agenda.exists_take hstep
  refine ⟨s, new, below, htake, rfl, fun x hx => ⟨by simp [hx], ?_⟩, by simp, fun hs => ?_⟩
  · cases skipped with
    | nil => exact h.plain x hx
    | cons u skipped => exact h.plain x (by simp [hx])
  · cases skipped with
    | nil => rfl
    | cons u skipped => exact absurd (h.plain s (by simp)).1 hs

theorem Settled.step (h : Settled c) (hstep : Agenda.step c t = some d) : Settled d := by
  obtain ⟨s, new, below, htake, rfl, hbelow, _, _⟩ := h.exists_take hstep
  have hplain : ∀ x ∈ below, x.Plain := fun x hx => (hbelow x hx).2
  have hcomma : .token (.sign .comma) ∉ below := fun hmem => h.noComma (hbelow _ hmem).1
  cases new with
  | nil => exact ⟨fun x hx => hplain x (List.mem_of_mem_tail hx), hcomma⟩
  | cons a new => exact (settled_take htake).append (List.cons_ne_nil a new) hplain hcomma

theorem Settled.run (h : Settled c) (hrun : Agenda.run c us = some d) : Settled d := by
  induction us generalizing c with
  | nil =>
    cases hrun
    exact h
  | cons t us ih =>
    obtain ⟨mid, hmid, hrun⟩ := Option.bind_eq_some_iff.1 hrun
    exact ih (h.step hmid) hrun

theorem settled_program : Settled [.program] := ⟨by decide, by decide⟩

/-- No dash goes on with plain slots. -/
theorem step_dash_of_plain (h : ∀ s ∈ c, s.Plain) : Agenda.step c (.sign .dash) = none := by
  induction c with
  | nil => rfl
  | cons s c ih =>
    obtain ⟨hs, hc⟩ := List.forall_mem_cons.1 h
    simp [Agenda.step, hs.2, ih hc]

end Agenda

/-- A slot after the name that a statement or step begins with. -/
def Slot.Named (s : Slot) : Prop := s = .namedStatement ∨ s = .namedStep

namespace Slot

variable {s a : Slot} {new : Agenda} {t : Token}

theorem Named.pending (h : s.Named) : s.pending = 1 := by rcases h with rfl | rfl <;> rfl

theorem begins_pending {kind : BlockItem} (h : begins kind t = some (a :: new))
    (ha : a.pending ≠ 0) : a.Named ∧ ∃ x, t = .identifier x := by
  unfold begins at h
  split at h
  case h_8 x =>
    cases h
    exact ⟨Or.inl rfl, x, rfl⟩
  case h_10 x =>
    cases h
    exact ⟨Or.inr rfl, x, rfl⟩
  case h_9 =>
    split at h <;> cases h
    exact absurd rfl ha
  all_goals cases h
  all_goals exact absurd rfl ha

/-- What opens a slot at which tokens are given back. -/
theorem take?_pending (h : s.take? t = some (a :: new)) (ha : a.pending ≠ 0) :
    (a.Named ∧ ∃ x, t = .identifier x) ∨
      (a.pending = 2 ∧ t = .sign .dash ∧ s.Named) ∨
      (a = .anotherAt ∧ t = .sign .comma) ∨
      (a = .anotherName ∧ t = .sign .at ∧ s = .anotherAt) := by
  have hmany {kind : BlockItem} {more : Agenda}
      (h : (begins kind t).map (· ++ more) = some (a :: new)) :
    a.Named ∧ ∃ x, t = .identifier x := by
    obtain ⟨first, hfirst, heq⟩ := Option.map_eq_some_iff.1 h
    cases first with
    | nil => exact absurd rfl (settled_begins hfirst).2
    | cons b first =>
      cases heq
      exact begins_pending hfirst ha
  cases s with
  | item kind => exact Or.inl (begins_pending h ha)
  | block kind => exact Or.inl (hmany h)
  | program => exact Or.inl (hmany h)
  | _ =>
    simp only [take?] at h
    split at h <;> cases h <;> first | exact absurd rfl ha | simp_all [Named, pending]

/-- A name leaves a form open, or the colon of a property. -/
theorem take?_identifier {x : Ident} (h : s.take? (.identifier x) = some (a :: new)) :
    a.Named ∨ a = .token (.sign .colon) := by
  have hbegins {kind : BlockItem} {new : Agenda}
      (h : begins kind (.identifier x) = some (a :: new)) :
      a.Named ∨ a = .token (.sign .colon) := by
    cases kind with
    | statement =>
      cases h
      exact Or.inl (Or.inl rfl)
    | property =>
      simp only [begins] at h
      split at h <;> cases h
      exact Or.inr rfl
    | step =>
      cases h
      exact Or.inl (Or.inr rfl)
  have hmany (kind : BlockItem) {more : Agenda}
      (h : (begins kind (.identifier x)).map (· ++ more) = some (a :: new)) :
      a.Named ∨ a = .token (.sign .colon) := by
    obtain ⟨first, hfirst, heq⟩ := Option.map_eq_some_iff.1 h
    cases first with
    | nil => exact absurd rfl (settled_begins hfirst).2
    | cons b first =>
      cases heq
      exact hbegins hfirst
  cases s with
  | item kind => exact hbegins h
  | block kind => exact hmany kind h
  | program => exact hmany .statement h
  | token u =>
    simp only [take?] at h
    split at h <;> cases h
  | _ => cases h

/-- A comma is for a further reference, unless it is asked for. -/
theorem take?_comma (h : s.take? (.sign .comma) = some new) :
    s = .token (.sign .comma) ∨ new = [.anotherAt, .moreReferences] := by
  cases s with
  | item kind => cases kind <;> cases h
  | block kind => cases kind <;> cases h
  | token u =>
    simp only [take?] at h
    split at h
    · next hu => exact Or.inl (hu ▸ rfl)
    · cases h
  | moreReferences =>
    cases h
    exact Or.inr rfl
  | _ => cases h

end Slot

/-! ## What is given back -/

section Reached

variable {us front look : List Token} {s a : Slot} {c : Agenda} {x : Ident}

/-- A slot at which tokens are given back was opened by the last token. -/
theorem exists_opening (h : run [.program] us = some (a :: c)) (ha : a.pending ≠ 0) :
    ∃ front t mid u new, us = front ++ [t] ∧ run [.program] front = some mid ∧
      u.take? t = some (a :: new) ∧ (u.pending ≠ 0 → mid.head? = some u) := by
  rcases List.eq_nil_or_concat us with rfl | ⟨front, t, rfl⟩
  · cases h
    exact absurd rfl ha
  rw [List.concat_eq_append] at h ⊢
  obtain ⟨mid, hmid, hstep⟩ := exists_step_of_run h
  obtain ⟨u, new, below, htake, heq, hplain, _, hhead⟩ :=
    (settled_program.run hmid).exists_take hstep
  cases new with
  | nil =>
    obtain rfl : a :: c = below := heq
    exact absurd (hplain a List.mem_cons_self).2.1 ha
  | cons b new =>
    cases heq
    exact ⟨front, t, mid, u, new, rfl, hmid, htake, hhead⟩

theorem exists_name_of_named (h : run [.program] us = some (s :: c)) (hs : s.Named) :
    ∃ front x, us = front ++ [.identifier x] := by
  obtain ⟨front, t, _, _, _, rfl, _, htake, _⟩ := exists_opening h (by simp [hs.pending])
  rcases Slot.take?_pending htake (by simp [hs.pending]) with
    ⟨_, x, rfl⟩ | ⟨hp, _⟩ | ⟨rfl, _⟩ | ⟨rfl, _⟩
  · exact ⟨front, x, rfl⟩
  · rw [hs.pending] at hp
    cases hp
  · rcases hs with hs | hs <;> cases hs
  · rcases hs with hs | hs <;> cases hs

theorem exists_comma_of_anotherAt (h : run [.program] us = some (.anotherAt :: c)) :
    ∃ front, us = front ++ [.sign .comma] := by
  obtain ⟨front, t, _, _, _, rfl, _, htake, _⟩ := exists_opening h (by decide)
  rcases Slot.take?_pending htake (by decide) with ⟨hs, _⟩ | ⟨hp, _⟩ | ⟨_, rfl⟩ | ⟨hs, _⟩
  · rcases hs with hs | hs <;> cases hs
  · cases hp
  · exact ⟨front, rfl⟩
  · cases hs

/-- Where tokens are given back, they are unbound. -/
theorem exists_unbound_of_pending (h : run [.program] us = some c) (hc : c.pending ≠ 0) :
    ∃ look, Unbound us look ∧ look.length = c.pending := by
  cases c with
  | nil => exact absurd rfl hc
  | cons a c =>
    have ha : a.pending ≠ 0 := hc
    obtain ⟨front, t, mid, u, new, rfl, hmid, htake, hhead⟩ := exists_opening h ha
    rcases Slot.take?_pending htake ha with
      ⟨hs, x, rfl⟩ | ⟨hp, rfl, hu⟩ | ⟨rfl, rfl⟩ | ⟨rfl, rfl, rfl⟩
    · have hviable : Viable (front ++ [.identifier x] ++ [.sign .dash]) := by
        rw [viable_append_singleton_iff h]
        rcases hs with rfl | rfl <;> simp [step, Slot.take?]
      rw [List.append_assoc] at hviable
      exact ⟨_, .name hviable, hs.pending.symm⟩
    · obtain ⟨mid, rfl⟩ := List.head?_eq_some_iff.1 (hhead (by simp [hu.pending]))
      obtain ⟨front, x, rfl⟩ := exists_name_of_named hmid hu
      rw [List.append_assoc]
      exact ⟨_, .dash front x, hp.symm⟩
    · exact ⟨_, .comma front, rfl⟩
    · obtain ⟨mid, rfl⟩ := List.head?_eq_some_iff.1 (hhead (by decide))
      obtain ⟨front, rfl⟩ := exists_comma_of_anotherAt hmid
      rw [List.append_assoc]
      exact ⟨_, .commaAt front, rfl⟩

/-- A name that a dash may follow begins a statement or step. -/
theorem named_of_dash (h : run [.program] (front ++ [.identifier x]) = some c)
    (hdash : step c (.sign .dash) ≠ none) : ∃ s d, c = s :: d ∧ s.Named := by
  obtain ⟨mid, hmid, hstep⟩ := exists_step_of_run h
  obtain ⟨u, new, below, htake, rfl, hplain, _⟩ := (settled_program.run hmid).exists_take hstep
  cases new with
  | nil => exact absurd (step_dash_of_plain fun x hx => (hplain x hx).2) hdash
  | cons a new =>
    rcases Slot.take?_identifier htake with hs | rfl
    · exact ⟨a, new ++ below, rfl, hs⟩
    · exact absurd rfl hdash

theorem anotherAt_of_comma (h : run [.program] (front ++ [.sign .comma]) = some c) :
    ∃ d, c = .anotherAt :: d := by
  obtain ⟨mid, hmid, hstep⟩ := exists_step_of_run h
  have hsettled := settled_program.run hmid
  obtain ⟨u, new, below, htake, rfl, _, hmem, _⟩ := hsettled.exists_take hstep
  rcases Slot.take?_comma htake with rfl | rfl
  · exact absurd hmem hsettled.noComma
  · exact ⟨_, rfl⟩

/-- Unbound tokens are given back. -/
theorem pending_of_unbound (h : run [.program] us = some c) (hlook : Unbound us look) :
    c.pending = look.length := by
  cases hlook with
  | @name front x hviable =>
    rw [List.append_cons, viable_append_singleton_iff h] at hviable
    obtain ⟨s, d, rfl, hs⟩ := named_of_dash h hviable
    exact hs.pending
  | dash front x =>
    rw [List.append_cons] at h
    obtain ⟨mid, hmid, hstep⟩ := exists_step_of_run h
    obtain ⟨s, d, rfl, hs⟩ := named_of_dash hmid (by simp [hstep])
    rcases hs with rfl | rfl <;> cases hstep <;> rfl
  | comma front =>
    obtain ⟨d, rfl⟩ := anotherAt_of_comma h
    rfl
  | commaAt front =>
    rw [List.append_cons] at h
    obtain ⟨mid, hmid, hstep⟩ := exists_step_of_run h
    obtain ⟨d, rfl⟩ := anotherAt_of_comma hmid
    cases hstep
    rfl

/-- The tokens that are given back are the unbound ones. -/
theorem unbound_or_eq_nil (h : run [.program] us = some c) (hsuffix : look <:+ us)
    (hlength : c.pending = look.length) : Unbound us look ∨ look = [] ∧ ∀ l, ¬ Unbound us l := by
  by_cases hc : c.pending = 0
  · rw [hc] at hlength
    refine Or.inr ⟨List.eq_nil_of_length_eq_zero hlength.symm, fun l hl => ?_⟩
    have hpos := hl.length_pos
    rw [← pending_of_unbound h hl, hc] at hpos
    cases hpos
  · obtain ⟨l, hl, hlen⟩ := exists_unbound_of_pending h hc
    have heq : look = l :=
      (List.suffix_of_suffix_length_le hsuffix hl.suffix (by omega)).eq_of_length (by omega)
    exact Or.inl (heq ▸ hl)

end Reached

/-! ## The diagnostic of a fault -/

theorem exists_mem_of_spanOfAll? {α : Type} {xs : List (Spanned α)} {span : Span}
    (h : spanOfAll? xs = some span) : ∃ x ∈ xs, ∃ y ∈ xs, span = x.span.union y.span := by
  cases xs with
  | nil => cases h
  | cons x xs =>
    cases h
    refine ⟨x, List.mem_cons_self, xs.getLast?.getD x, ?_, rfl⟩
    cases hlast : xs.getLast? with
    | none => exact List.mem_cons_self
    | some y => exact List.mem_cons_of_mem _ (List.mem_of_getLast? hlast)

/-- The label of an unexpected token begins at the token or at one of its construct, and ends
at the token or at one of its construct. -/
theorem SyntaxFault.exists_label (all : Tokens) {more : Tokens} {f : SyntaxFault}
    {t : Spanned Token} (hrest : f.rest = t :: more) :
    ∃ label x y, (f.diagnostic all).labels = [label] ∧ x ∈ f.construct ++ [t] ∧
      y ∈ f.construct ++ [t] ∧ label.span = x.span.union (y.span.union t.span) := by
  unfold diagnostic syntaxDiagnostic
  rw [hrest]
  cases hspan : spanOfAll? f.construct with
  | none =>
    refine ⟨_, t, t, rfl, by simp, by simp, ?_⟩
    simp [Span.union]
  | some span =>
    obtain ⟨x, hx, y, hy, rfl⟩ := exists_mem_of_spanOfAll? hspan
    refine ⟨_, x, y, rfl, by simp [hx], by simp [hy], ?_⟩
    simp [Span.union, Nat.max_assoc, Nat.min_assoc]

/-- In the order of a source no token of a construct ends after the one it stops at. -/
theorem SyntaxFault.label_stop {all more : Tokens} {f : SyntaxFault} {t : Spanned Token}
    (hrest : f.rest = t :: more) (hfault : f.construct ++ f.rest <:+ all)
    (horder : all.Pairwise fun s t => s.span.stop ≤ t.span.stop) :
    ∃ label, (f.diagnostic all).labels = [label] ∧ label.span.stop = t.span.stop := by
  obtain ⟨label, x, y, hlabels, hx, hy, hspan⟩ := exists_label all hrest
  refine ⟨label, hlabels, ?_⟩
  have hpair := horder.sublist hfault.sublist
  rw [hrest, List.pairwise_append] at hpair
  have hle : ∀ z ∈ f.construct ++ [t], z.span.stop ≤ t.span.stop := by
    refine List.forall_mem_append.2 ⟨fun z hz => hpair.2.2 z hz t List.mem_cons_self, ?_⟩
    simp
  have := hle x hx
  have := hle y hy
  simp only [hspan, Span.union]
  omega

/-- The token at which a fault stops, by its place in the source. -/
theorem SyntaxFault.getElem?_length {all more : Tokens} {f : SyntaxFault} {t : Spanned Token}
    {front : List Token} (hrest : f.rest = t :: more) (hfault : f.construct ++ f.rest <:+ all)
    (hall : values all = front ++ values f.rest) : all[front.length]? = some t := by
  obtain ⟨before, rfl⟩ := hfault
  have hlen := congrArg List.length hall
  simp only [values, List.length_map, List.length_append] at hlen
  have hfront : front.length = (before ++ f.construct).length := by
    rw [List.length_append]
    omega
  rw [← List.append_assoc, hrest, hfront, List.getElem?_append_right (Nat.le_refl _), Nat.sub_self]
  rfl

/-- A fault at the end of its source. -/
theorem SyntaxFault.code_eq_incompleteInput_iff {all : Tokens} {f : SyntaxFault} :
    (f.diagnostic all).code = some .incompleteInput ↔ f.rest = [] := by
  unfold diagnostic syntaxDiagnostic
  split
  · next h => simp [h]
  · next h => simp [h]

/-- A source that is not a program is incomplete if its tokens are the beginning of one, and
none of the last ones are unbound. Otherwise the token that is named, at which the label ends,
is the first of the unbound ones at the end of the longest beginning of a program, and if
there are none the first after it, with which no program goes on. -/
theorem ofTokens_error_exact {lexemes : List (Spanned Lexeme)} {f : SyntaxFault}
    (h : Program.ofTokens (meaningful lexemes) = .error f) :
    ((f.diagnostic (meaningful lexemes)).code = some .incompleteInput ↔
      Viable (spelled lexemes) ∧ ∀ look, ¬ Unbound (spelled lexemes) look) ∧
    ((f.diagnostic (meaningful lexemes)).code ≠ some .incompleteInput →
      (f.diagnostic (meaningful lexemes)).code = some .unexpectedToken ∧
      ∃ front look post t, spelled lexemes = front ++ (look ++ post) ∧ Viable (front ++ look) ∧
        (∀ u, post.head? = some u → ¬ Viable (front ++ look ++ [u])) ∧
        (Unbound (front ++ look) look ∨ look = [] ∧ ∀ l, ¬ Unbound (front ++ look) l) ∧
        (meaningful lexemes)[front.length]? = some t ∧
        (f.diagnostic (meaningful lexemes)).message =
          "unexpected token " ++ quoted t.value.render ++ ": expected " ++ f.expected.text ∧
        ((meaningful lexemes).Pairwise (fun s t => s.span.stop ≤ t.span.stop) →
          ∃ label, (f.diagnostic (meaningful lexemes)).labels = [label] ∧
            label.span.stop = t.span.stop)) := by
  obtain ⟨hfault, front, look, post, c, hus, hrest, hrun, hpending, _, hnext⟩ :=
    Reader.readProgram_error (List.suffix_refl _) h
  have hlook : Unbound (front ++ look) look ∨ look = [] ∧ ∀ l, ¬ Unbound (front ++ look) l :=
    unbound_or_eq_nil hrun (List.suffix_append front look) hpending
  have hstop : ∀ u, post.head? = some u → ¬ Viable (front ++ look ++ [u]) := by
    intro u hu
    rw [viable_append_singleton_iff hrun, hnext u hu]
    simp
  rw [values_meaningful] at hus
  rw [SyntaxFault.code_eq_incompleteInput_iff, hus]
  constructor
  · constructor
    · intro hnil
      rw [hnil] at hrest
      obtain ⟨rfl, rfl⟩ := List.append_eq_nil_iff.1 hrest.symm
      refine ⟨viable_of_run hrun, ?_⟩
      rcases hlook with hlook | ⟨_, hnone⟩
      · exact absurd hlook.length_pos (Nat.lt_irrefl 0)
      · exact hnone
    · rintro ⟨hviable, hnone⟩
      rw [← List.append_assoc] at hviable hnone
      cases post with
      | cons u post =>
        rw [List.append_cons] at hviable
        exact absurd hviable.of_append (hstop u rfl)
      | nil =>
        rw [List.append_nil] at hnone
        rcases hlook with hlook | ⟨rfl, _⟩
        · exact absurd hlook (hnone look)
        · exact List.map_eq_nil_iff.1 hrest
  · intro hne
    cases hfrest : f.rest with
    | nil => exact absurd (SyntaxFault.code_eq_incompleteInput_iff.2 hfrest) hne
    | cons t more =>
      have hindex : (meaningful lexemes)[front.length]? = some t := by
        refine SyntaxFault.getElem?_length hfrest hfault ?_
        rw [values_meaningful, hus, ← hrest]
      refine ⟨?_, front, look, post, t, rfl, viable_of_run hrun, hstop, hlook, hindex, ?_,
        SyntaxFault.label_stop hfrest hfault⟩
      · simp [SyntaxFault.diagnostic, syntaxDiagnostic, hfrest]
      · simp [SyntaxFault.diagnostic, syntaxDiagnostic, hfrest]

/-- A declaration without the name that it needs. -/
def unnamedAgent : String := "agent 'A' as"

/-- It is the beginning of a program, and the reader is bound to the form. -/
theorem ofTokens_error_exact_unnamedAgent :
    ∃ lexemes f, tokenize unnamedAgent = .ok lexemes ∧
      Program.ofTokens (meaningful lexemes) = .error f ∧ Viable (spelled lexemes) ∧
      ∀ look, ¬ Unbound (spelled lexemes) look := by
  have hlexemes : (tokenize unnamedAgent).toOption.map (fun lexemes =>
      match Program.ofTokens (meaningful lexemes) with
      | .ok _ => none
      | .error f => (f.diagnostic (meaningful lexemes)).code) = some (some .incompleteInput) := by
    decide +kernel
  obtain ⟨lexemes, ht, hcode⟩ := exists_ok_of_toOption hlexemes
  cases hf : Program.ofTokens (meaningful lexemes) with
  | ok p =>
    rw [hf] at hcode
    cases hcode
  | error f =>
    rw [hf] at hcode
    obtain ⟨hviable, hnone⟩ := (ofTokens_error_exact hf).1.1 hcode
    exact ⟨lexemes, f, ht, hf, hviable, hnone⟩

/-- A source with one name. -/
def loneName : String := "a"

/-- The name may begin a data flow, and it is reported as unexpected. -/
theorem loneName_unexpected :
    ∃ lexemes f, tokenize loneName = .ok lexemes ∧
      Program.ofTokens (meaningful lexemes) = .error f ∧ Viable (spelled lexemes) ∧
      (f.diagnostic (meaningful lexemes)).code = some .unexpectedToken := by
  have hlexemes : (tokenize loneName).toOption.map (fun lexemes =>
      (spelled lexemes, match Program.ofTokens (meaningful lexemes) with
        | .ok _ => none
        | .error f => (f.diagnostic (meaningful lexemes)).code)) =
      some ([.identifier "a"], some .unexpectedToken) := by decide +kernel
  obtain ⟨lexemes, ht, heq⟩ := exists_ok_of_toOption hlexemes
  obtain ⟨hspelled, hcode⟩ := Prod.mk.inj heq
  cases hf : Program.ofTokens (meaningful lexemes) with
  | ok p =>
    rw [hf] at hcode
    cases hcode
  | error f =>
    rw [hf] at hcode
    exact ⟨lexemes, f, ht, hf, hspelled ▸ viable_of_run rfl, hcode⟩

end ArchScript
