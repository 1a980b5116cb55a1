/-
  Where an agenda stops.

  `Stops c us rest`: the agenda `c` admits a beginning of `us` and nothing more, and the reader
  is left with `rest`, for it gives back the tokens by which it was not bound to a form yet.
  `Leads L R us rest`: the tokens before `rest` fill the slots `L` up to optional ones among
  `R`, which `rest` does not fill. Both compose along agendas (`Leads.seq`, `Leads.stops`), if
  what fills the slots that were left empty does not fill the next ones (`Apart`).
-/
import ArchScript.Proofs.Grammar.Agenda

namespace ArchScript

namespace Agenda

variable {s : Slot} {c d L L₁ L₂ R R₁ R₂ : Agenda} {t : Token} {us mid rest : List Token}

/-! ## Where an agenda stops -/

/-- The first slot that may not stay empty is not filled by the tokens, and the optional ones
before it are not. -/
def Blocks : Agenda → List Token → Prop
  | [], _ => False
  | s :: c, post =>
    (∀ t, post.head? = some t → s.take? t = none) ∧ (s.optional = true → Blocks c post)

/-- The agenda `c` admits a beginning of `us` and nothing more. `rest` is what is left of `us`
and, before it, the tokens that are given back. -/
def Stops (c : Agenda) (us rest : List Token) : Prop :=
  ∃ front look post d, us = front ++ (look ++ post) ∧ rest = look ++ post ∧
    run c (front ++ look) = some d ∧ d.pending = look.length ∧ d.Blocks post

/-- An optional slot that stays empty before the tokens `us`: it does not take the first, or it
stops without one that is not given back. -/
def Declines (s : Slot) (us : List Token) : Prop :=
  s.optional = true ∧ ((∀ t, us.head? = some t → s.take? t = none) ∨ Stops [s] us us)

theorem Blocks.append (h : c.Blocks us) (below : Agenda) : Blocks (c ++ below) us := by
  induction c with
  | nil => exact h.elim
  | cons s c ih => exact ⟨h.1, fun hs => ih (h.2 hs)⟩

theorem pending_append (h : c ≠ []) (below : Agenda) : (c ++ below).pending = c.pending := by
  cases c with
  | nil => exact absurd rfl h
  | cons s c => rfl

theorem Blocks.ne_nil (h : c.Blocks us) : c ≠ [] := by
  rintro rfl
  exact h

theorem Blocks.step_eq_none (h : c.Blocks (t :: us)) : step c t = none := by
  induction c with
  | nil => exact h.elim
  | cons s c ih =>
    cases hs : s.optional with
    | true =>
      rw [step_skip hs (h.1 t rfl)]
      exact ih (h.2 hs)
    | false => simp [step, h.1 t rfl, hs]

theorem Blocks.not_done (h : c.Blocks []) : ¬ c.Done := by
  induction c with
  | nil => exact h.elim
  | cons s c ih =>
    intro hdone
    obtain ⟨hs, hc⟩ := List.forall_mem_cons.1 hdone
    exact ih (h.2 hs) hc

theorem pending_eq_zero_of_optional (hs : s.optional = true) : s.pending = 0 := by
  cases s <;> first | rfl | cases hs

theorem Stops.below (h : Stops c us rest) (below : Agenda) : Stops (c ++ below) us rest := by
  obtain ⟨front, look, post, d, hus, hrest, hrun, hpending, hblocks⟩ := h
  refine ⟨front, look, post, d ++ below, hus, hrest, run_below hrun below, ?_,
    hblocks.append below⟩
  rw [pending_append hblocks.ne_nil, hpending]

theorem Stops.after (hrun : run c us = some d) (h : Stops d mid rest) :
    Stops c (us ++ mid) rest := by
  obtain ⟨front, look, post, e, rfl, hrest, hd, hpending, hblocks⟩ := h
  refine ⟨us ++ front, look, post, e, (List.append_assoc _ _ _).symm, hrest, ?_, hpending, hblocks⟩
  rw [List.append_assoc, run_append_of_eq hrun]
  exact hd

/-- A slot that may not stay empty stops before what it does not take. -/
theorem stops_of_not_taken (hs : s.optional = false) (hpending : s.pending = 0)
    (h : ∀ t, us.head? = some t → s.take? t = none) : Stops [s] us us :=
  ⟨[], [], us, [s], rfl, rfl, rfl, hpending, h, fun ht => absurd (hs.symm.trans ht) (by simp)⟩

/-- Tokens that lead to a slot at which they are given back. -/
theorem stops_of_pending (look : List Token) {post : List Token} (hrun : run c look = some (s :: d))
    (hs : s.optional = false) (hpending : s.pending = look.length)
    (h : ∀ t, post.head? = some t → s.take? t = none) :
    Stops c (look ++ post) (look ++ post) :=
  ⟨[], look, post, s :: d, rfl, rfl, hrun, hpending, h,
    fun ht => absurd (hs.symm.trans ht) (by simp)⟩

/-- An agenda that does not take the first token stops at once. -/
theorem Stops.eq_of_step_eq_none (h : Stops c us rest) (hhead : us.head? = some t)
    (hstep : step c t = none) : rest = us := by
  obtain ⟨front, look, post, d, rfl, rfl, hrun, _, _⟩ := h
  cases hread : front ++ look with
  | nil => rw [← List.append_assoc, hread, (List.append_eq_nil_iff.1 hread).2]
  | cons u ts =>
    rw [← List.append_assoc, hread] at hhead
    cases hhead
    rw [hread, run_cons, hstep] at hrun
    cases hrun

/-- A slot that stays empty does not change where the others stop; if it takes the first
token, they must stop before it. -/
theorem Stops.decline (hs : Declines s us)
    (happart : ∀ t, us.head? = some t → s.take? t ≠ none → rest = us) (h : Stops c us rest) :
    Stops (s :: c) us rest := by
  obtain ⟨hopt, hs⟩ := hs
  by_cases htake : ∀ t, us.head? = some t → s.take? t = none
  · obtain ⟨front, look, post, d, rfl, rfl, hrun, hpending, hblocks⟩ := h
    cases hread : front ++ look with
    | nil =>
      obtain ⟨rfl, rfl⟩ := List.append_eq_nil_iff.1 hread
      cases hrun
      exact ⟨[], [], post, s :: c, rfl, rfl, rfl, pending_eq_zero_of_optional hopt, htake,
        fun _ => hblocks⟩
    | cons t ts =>
      refine ⟨front, look, post, d, rfl, rfl, ?_, hpending, hblocks⟩
      have ht : s.take? t = none := by
        refine htake t ?_
        rw [← List.append_assoc, hread]
        rfl
      rw [hread] at hrun ⊢
      rw [run_skip hopt ht]
      exact hrun
  · rcases hs with hs | hs
    · exact absurd hs htake
    obtain ⟨t, ht⟩ := Classical.not_forall.1 htake
    obtain ⟨hhead, ht⟩ := Classical.not_imp.1 ht
    rw [happart t hhead ht]
    exact hs.below c

/-! ## Slots in sequence -/

/-- What fills one of the slots `R` does not fill the agenda `L`. -/
def Apart (R L : Agenda) : Prop := ∀ s ∈ R, ∀ t, s.take? t ≠ none → step L t = none

/-- Slots that take one token each, which the agenda does not take. -/
theorem apart_cons {u : Token} (hs : ∀ t, t ≠ u → s.take? t = none) (hL : step L u = none)
    (hR : Apart R L) : Apart (s :: R) L := by
  refine List.forall_mem_cons.2 ⟨fun t ht => ?_, hR⟩
  by_cases htu : t = u
  · rw [htu, hL]
  · exact absurd (hs t htu) ht

/-- The tokens `us` lead from the agenda `L` to optional slots among `R`; `rest` is left, which
does not fill them. -/
def Leads (L R : Agenda) (us rest : List Token) : Prop :=
  ∃ ws N, us = ws ++ rest ∧ run L ws = some N ∧ ∀ s ∈ N, s ∈ R ∧ Declines s rest

theorem apart_nil (L : Agenda) : Apart [] L := nofun

/-- Slots are apart from a token that none of them takes. -/
theorem apart_token (h : ∀ s ∈ R, s.take? t = none) (L : Agenda) : Apart R (.token t :: L) := by
  intro s hs u hu
  have hne : u ≠ t := by
    rintro rfl
    exact hu (h s hs)
  simp [step, Slot.take?, hne, Slot.optional]

theorem run_skip_all {N : Agenda} (h : ∀ s ∈ N, s.optional = true ∧ s.take? t = none) (c : Agenda)
    (ts : List Token) : run (N ++ c) (t :: ts) = run c (t :: ts) := by
  induction N with
  | nil => rfl
  | cons s N ih =>
    obtain ⟨⟨hs, ht⟩, hN⟩ := List.forall_mem_cons.1 h
    rw [List.cons_append, run_skip hs ht, ih hN]

theorem Leads.refl (h : ∀ s ∈ L, s ∈ R ∧ Declines s us) : Leads L R us us := ⟨[], L, rfl, rfl, h⟩

theorem Leads.mono (h : Leads L R us rest) (hR : R ⊆ R₂) : Leads L R₂ us rest := by
  obtain ⟨ws, N, hus, hrun, hN⟩ := h
  exact ⟨ws, N, hus, hrun, fun s hs => ⟨hR (hN s hs).1, (hN s hs).2⟩⟩

/-- The agendas in sequence; the first may leave slots open only if the second may stay empty. -/
theorem Leads.seq (h₁ : Leads L₁ R₁ us mid) (h₂ : Leads L₂ R₂ mid rest) (happart : Apart R₁ L₂)
    (hR : R₁ ⊆ R₂ ∨ ∃ s ∈ L₂, s.optional = false) : Leads (L₁ ++ L₂) R₂ us rest := by
  obtain ⟨ws₁, N₁, rfl, hrun₁, hN₁⟩ := h₁
  obtain ⟨ws₂, N₂, rfl, hrun₂, hN₂⟩ := h₂
  cases ws₂ with
  | nil =>
    cases hrun₂
    refine ⟨ws₁, N₁ ++ L₂, rfl, run_below hrun₁ L₂, List.forall_mem_append.2 ⟨?_, hN₂⟩⟩
    rcases hR with hR | ⟨s, hs, hreq⟩
    · exact fun s hs => ⟨hR (hN₁ s hs).1, (hN₁ s hs).2⟩
    · rw [(hN₂ s hs).2.1] at hreq
      cases hreq
  | cons t ts =>
    refine ⟨ws₁ ++ t :: ts, N₂, (List.append_assoc _ _ _).symm, ?_, hN₂⟩
    have hskip : ∀ s ∈ N₁, s.optional = true ∧ s.take? t = none := by
      intro s hs
      refine ⟨(hN₁ s hs).2.1, Classical.byContradiction fun ht => ?_⟩
      rw [run_cons, happart s (hN₁ s hs).1 t ht] at hrun₂
      cases hrun₂
    rw [run_append_of_eq (run_below hrun₁ L₂), run_skip_all hskip]
    exact hrun₂

/-- The second agenda stops where both in sequence do. -/
theorem Leads.stops (h₁ : Leads L₁ R₁ us mid) (h₂ : Stops L₂ mid rest) (happart : Apart R₁ L₂) :
    Stops (L₁ ++ L₂) us rest := by
  obtain ⟨ws, N, rfl, hrun, hN⟩ := h₁
  refine Stops.after (run_below hrun L₂) ?_
  have hrest : ∀ s ∈ N, ∀ t, mid.head? = some t → s.take? t ≠ none → rest = mid :=
    fun s hs t hhead ht => h₂.eq_of_step_eq_none hhead (happart s (hN s hs).1 t ht)
  clear hrun
  induction N with
  | nil => exact h₂
  | cons s N ih =>
    obtain ⟨⟨_, hs⟩, hN⟩ := List.forall_mem_cons.1 hN
    obtain ⟨hsrest, hrest⟩ := List.forall_mem_cons.1 hrest
    exact (ih hN hrest).decline hs hsrest

/-! ## Items and what follows them -/

theorem Stops.length_le (h : Stops c us rest) : rest.length ≤ us.length := by
  obtain ⟨front, look, post, d, rfl, rfl, _⟩ := h
  simp

/-- A slot that may not stay empty uses up tokens. -/
theorem Leads.length_lt (h : Leads [s] R us rest) (hs : s.optional = false) :
    rest.length < us.length := by
  obtain ⟨ws, N, rfl, hrun, hN⟩ := h
  cases ws with
  | nil =>
    cases hrun
    rw [(hN s List.mem_cons_self).2.1] at hs
    cases hs
  | cons t ws => simp only [List.cons_append, List.length_cons, List.length_append]; omega

section Many

variable {kind : BlockItem} {more : Agenda}
  (hs : ∀ t, s.take? t = (Slot.begins kind t).map (· ++ more))
include hs

/-- A slot for many items goes on like one item and what follows it. -/
theorem run_many (h : run (.item kind :: more) (t :: us) = some d) :
    run [s] (t :: us) = some d := by
  obtain ⟨mid, hmid, h⟩ := Option.bind_eq_some_iff.1 h
  rcases step_eq_some_iff.1 hmid with ⟨new, hnew, rfl⟩ | ⟨_, hopt, _⟩
  · have htake : s.take? t = some (new ++ more) := by
      rw [hs, show Slot.begins kind t = some new from hnew, Option.map_some]
    rw [run_cons, step_take htake, Option.bind_some, List.append_nil]
    exact h
  · cases hopt

theorem Leads.many (h : Leads (.item kind :: more) R us rest) : Leads [s] R us rest := by
  obtain ⟨ws, N, hus, hrun, hN⟩ := h
  cases ws with
  | nil =>
    cases hrun
    cases (hN (.item kind) List.mem_cons_self).2.1
  | cons t ws => exact ⟨t :: ws, N, hus, run_many hs hrun, hN⟩

/-- Where an item and what follows it stop, many items do, unless none begins. -/
theorem Stops.many (h : Stops (.item kind :: more) us rest) :
    (∀ t, us.head? = some t → s.take? t = none) ∧ rest = us ∨ Stops [s] us rest := by
  obtain ⟨front, look, post, d, rfl, rfl, hrun, hpending, hblocks⟩ := h
  cases hread : front ++ look with
  | nil =>
    obtain ⟨rfl, rfl⟩ := List.append_eq_nil_iff.1 hread
    cases hrun
    refine Or.inl ⟨fun t ht => ?_, rfl⟩
    rw [hs, show Slot.begins kind t = none from hblocks.1 t ht, Option.map_none]
  | cons t ts =>
    refine Or.inr ⟨front, look, post, d, rfl, rfl, ?_, hpending, hblocks⟩
    rw [hread] at hrun ⊢
    exact run_many hs hrun

end Many

/-! ## Where a program halts -/

/-- The tokens that are left do not go on with the agenda `c`, or there are none and more is
needed. The reader gives back the tokens `look` before them. -/
def Halts (c : Agenda) (us rest : List Token) : Prop :=
  ∃ front look post d, us = front ++ (look ++ post) ∧ rest = look ++ post ∧
    run c (front ++ look) = some d ∧ d.pending = look.length ∧ (post = [] → ¬ d.Done) ∧
      ∀ t, post.head? = some t → step d t = none

theorem Stops.halts (h : Stops c us rest) : Halts c us rest := by
  obtain ⟨front, look, post, d, hus, hrest, hrun, hpending, hblocks⟩ := h
  refine ⟨front, look, post, d, hus, hrest, hrun, hpending, ?_, fun t ht => ?_⟩
  · rintro rfl
    exact hblocks.not_done
  · obtain ⟨post, rfl⟩ := List.head?_eq_some_iff.1 ht
    exact hblocks.step_eq_none

theorem Halts.after (hrun : run c us = some d) (h : Halts d mid rest) :
    Halts c (us ++ mid) rest := by
  obtain ⟨front, look, post, e, rfl, hrest, hd, hpending, hnext⟩ := h
  refine ⟨us ++ front, look, post, e, (List.append_assoc _ _ _).symm, hrest, ?_, hpending, hnext⟩
  rw [List.append_assoc, run_append_of_eq hrun]
  exact hd

end Agenda

end ArchScript
