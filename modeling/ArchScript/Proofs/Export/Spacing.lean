/-
  The layouts of an export differ in spaces and line feeds between its literals, and in nothing
  else.

  `marked` walks over a JSON text and notes where each character stands: outside the string
  literals, in one, or behind a backslash of one. `unspaced` leaves out the spaces and line feeds
  that stand outside. `Spaced text core` says that a text ends outside, that `core` is left of it
  and that its only control characters are line feeds outside. Texts in a row are spaced when
  each is (`Spaced.append`), so a document is, by induction over its tree
  (`Document.Verbal.spaced`).
-/
import ArchScript.Proofs.Export.Injective

namespace ArchScript

namespace Json

/-! ## Where characters stand -/

/-- Where a character of a JSON text stands. -/
inductive Ground where
  | outside
  | literal
  /-- behind a backslash of a literal -/
  | escaped
deriving DecidableEq

/-- Where the next character stands. -/
def Ground.after : Ground → Char → Ground
  | outside, c => if c = '"' then literal else outside
  | literal, c => if c = '"' then outside else if c = '\\' then escaped else literal
  | escaped, _ => literal

/-- The characters of a text, each with where it stands. -/
def marked (g : Ground) : List Char → List (Char × Ground)
  | [] => []
  | c :: cs => (c, g) :: marked (g.after c) cs

/-- A space or a line feed outside the string literals. -/
def isSpacing (x : Char × Ground) : Bool := x.2 == .outside && (x.1 == ' ' || x.1 == '\n')

/-- A text without the spaces and line feeds that stand outside its string literals. -/
def unspaced (cs : List Char) : List Char :=
  ((marked .outside cs).filter fun x => !isSpacing x).map Prod.fst

theorem map_fst_marked (g : Ground) (cs : List Char) : (marked g cs).map Prod.fst = cs := by
  induction cs generalizing g with
  | nil => rfl
  | cons c cs ih => rw [marked, List.map_cons, ih]

theorem marked_append (g : Ground) (cs ds : List Char) :
    marked g (cs ++ ds) = marked g cs ++ marked (cs.foldl Ground.after g) ds := by
  induction cs generalizing g with
  | nil => rfl
  | cons c cs ih => rw [List.cons_append, marked, marked, ih, List.cons_append, List.foldl_cons]

/-- Nothing is left out of a text exactly when it has no spacing. -/
theorem unspaced_eq_self_iff {cs : List Char} :
    unspaced cs = cs ↔ ∀ x ∈ marked .outside cs, isSpacing x = false := by
  constructor
  · intro h
    have hlength : ((marked .outside cs).filter fun x => !isSpacing x).length =
        (marked .outside cs).length := by
      rw [← List.length_map Prod.fst, ← List.length_map Prod.fst, map_fst_marked]
      exact congrArg List.length h
    simpa using List.length_filter_eq_length_iff.1 hlength
  · intro h
    unfold unspaced
    rw [List.filter_eq_self.2 (by simpa using h), map_fst_marked]

/-! ## Texts that are spaced -/

/-- A text from outside to outside with the core `core`. Spacing apart it has no control
characters, and of the spacing only line feeds are control characters. -/
structure Spaced (text core : List Char) : Prop where
  closed : text.foldl Ground.after .outside = .outside
  core : unspaced text = core
  controls : ∀ x ∈ marked .outside text, x.1.toNat < 0x20 → x = ('\n', .outside)

namespace Spaced

variable {t t' u u' : List Char}

theorem nil : Spaced [] [] := ⟨rfl, rfl, nofun⟩

theorem append (h : Spaced t u) (h' : Spaced t' u') : Spaced (t ++ t') (u ++ u') where
  closed := by rw [List.foldl_append, h.closed, h'.closed]
  core := by
    rw [← h.core, ← h'.core]
    unfold unspaced
    rw [marked_append, h.closed, List.filter_append, List.map_append]
  controls := by
    rw [marked_append, h.closed]
    exact List.forall_mem_append.2 ⟨h.controls, h'.controls⟩

theorem flatMap {α : Type} {w v : α → List Char} {xs : List α}
    (h : ∀ x ∈ xs, Spaced (w x) (v x)) : Spaced (xs.flatMap w) (xs.flatMap v) := by
  induction xs with
  | nil => exact nil
  | cons x xs ih =>
    obtain ⟨hx, hxs⟩ := List.forall_mem_cons.1 h
    rw [List.flatMap_cons, List.flatMap_cons]
    exact hx.append (ih hxs)

/-- A sign of the grammar, such as a bracket or a comma. -/
theorem sign {c : Char} (hquote : c ≠ '"') (hvisible : 0x20 < c.toNat) : Spaced [c] [c] := by
  have hspace : c ≠ ' ' := by
    rintro rfl
    exact absurd hvisible (by decide)
  have hline : c ≠ '\n' := by
    rintro rfl
    exact absurd hvisible (by decide)
  refine ⟨?_, ?_, ?_⟩
  · simp [Ground.after, hquote]
  · simp [unspaced, marked, isSpacing, hspace, hline]
  · simp only [marked, List.forall_mem_singleton]
    omega

/-- A line break is spacing. -/
theorem lineBreak (layout : Layout) (depth : Nat) : Spaced (layout.lineBreak depth) [] := by
  have hfeed : Spaced ['\n'] [] := ⟨rfl, rfl, by decide⟩
  have hspace : Spaced [' '] [] := ⟨rfl, rfl, by decide⟩
  cases layout with
  | compact => exact nil
  | pretty =>
    have hindent : ∀ n, Spaced (List.replicate n ' ') [] := by
      intro n
      induction n with
      | zero => exact nil
      | succ n ih => exact hspace.append ih
    exact hfeed.append (hindent (2 * depth))

theorem colon (layout : Layout) : Spaced layout.colon (Layout.compact.colon) := by
  cases layout <;> exact ⟨rfl, rfl, by decide⟩

end Spaced

/-! ## String literals -/

/-- A piece of a literal: it ends in the literal, stays in it and has no control character. -/
structure Quotable (cs : List Char) : Prop where
  closed : cs.foldl Ground.after .literal = .literal
  marks : ∀ x ∈ marked .literal cs, x.2 ≠ .outside ∧ 0x20 ≤ x.1.toNat

theorem Quotable.flatMap {α : Type} {w : α → List Char} (h : ∀ x, Quotable (w x)) (xs : List α) :
    Quotable (xs.flatMap w) := by
  induction xs with
  | nil => exact ⟨rfl, nofun⟩
  | cons x xs ih =>
    rw [List.flatMap_cons]
    refine ⟨by rw [List.foldl_append, (h x).closed, ih.closed], ?_⟩
    rw [marked_append, (h x).closed]
    exact List.forall_mem_append.2 ⟨(h x).marks, ih.marks⟩

theorem hexDigit_visible :
    ∀ n < 16, hexDigit n ≠ '"' ∧ hexDigit n ≠ '\\' ∧ 0x20 ≤ (hexDigit n).toNat := by decide

/-- What is written for a character stays in the literal, whatever the character is. -/
theorem quotable_escapeChar (c : Char) : Quotable (escapeChar c) := by
  unfold escapeChar
  split_ifs with hquote hslash hb hf hn hr ht hcontrol
  iterate 7 exact ⟨rfl, by decide⟩
  · obtain ⟨hq, hs, hv⟩ := hexDigit_visible (c.toNat / 16) (by omega)
    obtain ⟨hq', hs', hv'⟩ := hexDigit_visible (c.toNat % 16) (by omega)
    refine ⟨by simp [Ground.after, hq, hs, hq', hs'], ?_⟩
    simp [marked, Ground.after, hq, hs, hv, hv']
  · refine ⟨by simp [Ground.after, hquote, hslash], ?_⟩
    simp only [marked, List.forall_mem_singleton]
    exact ⟨by decide, by omega⟩

/-- A literal has no spacing: what stands in it belongs to the string. -/
theorem Spaced.quote (s : String) : Spaced (quote s) (quote s) := by
  have hbody := Quotable.flatMap quotable_escapeChar s.toList
  have hmarked : marked .outside (Json.quote s) =
      ('"', .outside) :: (marked .literal (s.toList.flatMap escapeChar) ++ [('"', .literal)]) := by
    rw [Json.quote, List.cons_append, marked]
    rw [show Ground.outside.after '"' = .literal from rfl, marked_append, hbody.closed]
    rfl
  refine ⟨?_, unspaced_eq_self_iff.2 ?_, ?_⟩
  · rw [Json.quote, List.cons_append, List.foldl_cons,
      show Ground.outside.after '"' = .literal from rfl, List.foldl_append, hbody.closed]
    rfl
  · rw [hmarked]
    refine List.forall_mem_cons.2 ⟨rfl, List.forall_mem_append.2 ⟨fun x hx => ?_, by decide⟩⟩
    simp [isSpacing, (hbody.marks x hx).1]
  · rw [hmarked]
    refine List.forall_mem_cons.2 ⟨by decide, List.forall_mem_append.2 ⟨fun x hx => ?_, by decide⟩⟩
    have hvisible := (hbody.marks x hx).2
    omega

/-! ## Lists and records -/

theorem Spaced.enclosed {α : Type} {layout : Layout} {depth : Nat} {w v : α → List Char}
    {stop : Char} (hstop : Spaced [stop] [stop]) {xs : List α}
    (hxs : ∀ x ∈ xs, Spaced (w x) (v x)) :
    Spaced (enclosed layout depth w stop xs) (enclosed .compact depth v stop xs) := by
  have hcomma : Spaced [','] [','] := Spaced.sign (by decide) (by decide)
  cases xs with
  | nil => exact hstop
  | cons x xs =>
    obtain ⟨hx, hxs⟩ := List.forall_mem_cons.1 hxs
    have hitems := Spaced.flatMap fun x hmem =>
      (hcomma.append (Spaced.lineBreak layout (depth + 1))).append (hxs x hmem)
    exact ((((Spaced.lineBreak layout (depth + 1)).append hx).append hitems).append
      (Spaced.lineBreak layout depth)).append hstop

end Json

open Json

/-- A document of texts, lists and records is the same in both layouts but for the spacing. -/
theorem Document.Verbal.spaced {d : Document} (h : d.Verbal) (layout : Layout) (depth : Nat) :
    Spaced (write layout depth d) (write .compact depth d) := by
  induction h generalizing depth with
  | text s => exact Spaced.quote s
  | @list ds hds ih =>
    have hopen : Spaced ['['] ['['] := Spaced.sign (by decide) (by decide)
    have hclose : Spaced [']'] [']'] := Spaced.sign (by decide) (by decide)
    rw [write_list, write_list]
    exact hopen.append (Spaced.enclosed hclose fun d hd => ih d hd (depth + 1))
  | @record fs hfs ih =>
    have hopen : Spaced ['{'] ['{'] := Spaced.sign (by decide) (by decide)
    have hclose : Spaced ['}'] ['}'] := Spaced.sign (by decide) (by decide)
    have hfield : ∀ f ∈ fs,
        Spaced (writeField layout (depth + 1) f) (writeField .compact (depth + 1) f) :=
      fun f hf => ((Spaced.quote f.1).append (Spaced.colon layout)).append (ih f hf (depth + 1))
    rw [write_record, write_record]
    exact hopen.append (Spaced.enclosed hclose hfield)

/-- The two exports of a model agree. The one on many lines, without the spaces and line feeds
outside its string literals, is the one on one line. That one has no control character, and the
control characters of the other are line feeds outside the literals. -/
theorem toJson_spacing (m : SystemModel) :
    unspaced (m.toJson true).toList = (m.toJson false).toList ∧
      (∀ c ∈ (m.toJson false).toList, 0x20 ≤ c.toNat) ∧
      ∀ x ∈ marked .outside (m.toJson true).toList, x.1.toNat < 0x20 → x = ('\n', .outside) := by
  have hpretty := (Export.verbal_model m).spaced .pretty 0
  have hcompact := (Export.verbal_model m).spaced .compact 0
  have htext : ∀ layout : Layout, (Json.render layout (Export.model m)).toList =
      write layout 0 (Export.model m) := fun layout => String.toList_ofList
  simp only [SystemModel.toJson, if_true, Bool.false_eq_true, if_false, htext]
  refine ⟨hpretty.core, fun c hc => ?_, hpretty.controls⟩
  rw [← map_fst_marked .outside (write .compact 0 (Export.model m))] at hc
  obtain ⟨x, hx, rfl⟩ := List.mem_map.1 hc
  refine Nat.le_of_not_lt fun hcontrol => ?_
  -- a control character would be a line feed outside the literals, and those are left out
  have hspacing := unspaced_eq_self_iff.1 hcompact.core x hx
  rw [hcompact.controls x hx hcontrol] at hspacing
  cases hspacing

end ArchScript
