/-
  Every label cuts a piece out of its source.

  The span of a token slices its source (`Span.Slices`), and so does a span that reaches from
  one token to another. Syntax faults and violations have labels of this form; a lexical
  fault marks characters, but for an unexpected character, whose label is one byte
  long however many it has. `compile_labels` says that this is the only label that may end
  inside a character.
-/
import ArchScript.Proofs.Diagnostics.Places
import ArchScript.Proofs.Grammar.Viable
import ArchScript.Proofs.Lexing.Faults
import ArchScript.Report

namespace ArchScript

/-! ## Slices -/

/-- The span is a piece of the source: it is not empty, and it begins and ends between
characters. -/
structure Span.Slices (s : Span) (source : String) : Prop where
  nonempty : s.start < s.stop
  start : (⟨s.start⟩ : String.Pos.Raw).IsValid source
  stop : (⟨s.stop⟩ : String.Pos.Raw).IsValid source

variable {source : String}

theorem Span.Slices.union {s t : Span} (hs : s.Slices source) (ht : t.Slices source) :
    (s.union t).Slices source := by
  have hnonempty := hs.nonempty
  have hnonempty' := ht.nonempty
  refine ⟨?_, ?_, ?_⟩
  · simp only [Span.union]
    omega
  · rcases Nat.le_total s.start t.start with h | h
    · simp only [Span.union, Nat.min_eq_left h, hs.start]
    · simp only [Span.union, Nat.min_eq_right h, ht.start]
  · rcases Nat.le_total s.stop t.stop with h | h
    · simp only [Span.union, Nat.max_eq_right h, ht.stop]
    · simp only [Span.union, Nat.max_eq_left h, hs.stop]

/-- Characters of the source are a piece of it. -/
theorem slices_of_eq_append {before w after : List Char} (hw : w ≠ [])
    (h : source.toList = before ++ (w ++ after)) :
    (Span.ofSize (Text.byteLength before) (Text.byteLength w)).Slices source := by
  have hstop : source.toList = (before ++ w) ++ after := by rw [h, List.append_assoc]
  refine ⟨Nat.lt_add_of_pos_right (Text.byteLength_pos hw), isValid_byteLength h, ?_⟩
  have hvalid := isValid_byteLength hstop
  rw [Text.byteLength_append] at hvalid
  exact hvalid

/-- The character `c` begins at the offset `pos` of the source. -/
def CharAt (source : String) (pos : Nat) (c : Char) : Prop :=
  ∃ before after, source.toList = before ++ c :: after ∧ pos = Text.byteLength before

/-- One byte after its beginning a character ends if it has no other. -/
theorem CharAt.isValid_succ_iff {pos : Nat} {c : Char} (h : CharAt source pos c) :
    (⟨pos + 1⟩ : String.Pos.Raw).IsValid source ↔ c.utf8Size = 1 := by
  obtain ⟨before, after, hsource, rfl⟩ := h
  constructor
  · intro hvalid
    obtain ⟨s, t, rfl, hpos⟩ := String.Pos.Raw.isValid_iff_exists_append.1 hvalid
    have hsize : Text.byteLength before + 1 = Text.byteLength s.toList := by
      rw [Text.byteLength_toList]
      exact congrArg String.Pos.Raw.byteIdx hpos
    have hpositive := Char.utf8Size_pos c
    rw [String.toList_append, List.append_eq_append_iff] at hsource
    rcases hsource with ⟨more, hbefore, _⟩ | ⟨more, hs, hmore⟩
    · rw [hbefore, Text.byteLength_append] at hsize
      omega
    · rw [hs, Text.byteLength_append] at hsize
      -- the byte is taken up by whole characters, and `c` is the first of them
      cases more with
      | nil => simp at hsize
      | cons d more =>
        cases hmore
        rw [Text.byteLength_cons] at hsize
        omega
  · intro hc
    have hstop : source.toList = (before ++ [c]) ++ after := by
      rw [hsource, List.append_assoc]
      rfl
    have hvalid := isValid_byteLength hstop
    rw [Text.byteLength_append, Text.byteLength_cons, hc] at hvalid
    exact hvalid

/-! ## Tokens -/

theorem slices_of_tokenize {lexemes : List (Spanned Lexeme)} (h : tokenize source = .ok lexemes) :
    ∀ l ∈ lexemes, l.span.Slices source := by
  obtain ⟨ps, hps, _, rfl⟩ := tokenize_eq_ok_iff_greedy.1 h
  intro l hl
  obtain ⟨before, w, after, hsource, hlongest, hspan⟩ := hps.standsIn 0 l hl
  rw [hspan, Nat.zero_add]
  exact slices_of_eq_append hlongest.spells.ne_nil hsource

theorem slices_of_mem_meaningful {lexemes : List (Spanned Lexeme)}
    (h : tokenize source = .ok lexemes) : ∀ t ∈ meaningful lexemes, t.span.Slices source := by
  intro t ht
  obtain ⟨l, hl, hlt⟩ := List.mem_filterMap.1 ht
  obtain ⟨u, _, rfl⟩ := Option.map_eq_some_iff.1 hlt
  exact slices_of_tokenize h l hl

theorem slices_of_mem_identifiersIn {ts : Tokens} (h : ∀ t ∈ ts, t.span.Slices source) :
    ∀ x ∈ identifiersIn ts, x.span.Slices source := by
  intro x hx
  obtain ⟨t, ht, htx⟩ := List.mem_filterMap.1 hx
  obtain ⟨name, _, rfl⟩ := Option.map_eq_some_iff.1 htx
  exact h t ht

/-! ## Diagnostics -/

/-- The label of a lexical fault is a piece of its source, unless it marks one byte of a longer
character. -/
theorem FaultIn.slices_iff {f : Spanned LexicalFault} (h : FaultIn 0 source.toList f) :
    f.span.start < f.span.stop ∧ f.span.stop ≤ source.utf8ByteSize ∧
      (⟨f.span.start⟩ : String.Pos.Raw).IsValid source ∧
      ((⟨f.span.stop⟩ : String.Pos.Raw).IsValid source ↔
        (f.value = .unexpectedCharacter → ∀ c, CharAt source f.span.start c → c.utf8Size = 1)) := by
  have hwithin := h.within
  rw [Text.byteLength_toList, Nat.zero_add] at hwithin
  refine ⟨hwithin.2.1, hwithin.2.2, ?_⟩
  cases h with
  | @marked x before w after hx hcs hw =>
    have hslices := slices_of_eq_append hw hcs
    rw [Nat.zero_add]
    exact ⟨hslices.start, iff_of_true hslices.stop fun heq => absurd heq hx⟩
  | @unexpected before after c hcs =>
    have hat : CharAt source (Text.byteLength before) c := ⟨before, after, hcs, rfl⟩
    rw [Nat.zero_add]
    refine ⟨isValid_byteLength hcs, ?_⟩
    constructor
    · exact fun hstop _ d hd => hd.isValid_succ_iff.1 hstop
    · exact fun hall => hat.isValid_succ_iff.2 (hall rfl c hat)

theorem slices_of_spanOfAll? {ts : Tokens} (h : ∀ t ∈ ts, t.span.Slices source) {span : Span}
    (hspan : spanOfAll? ts = some span) : span.Slices source := by
  obtain ⟨x, hx, y, hy, rfl⟩ := exists_mem_of_spanOfAll? hspan
  exact (h x hx).union (h y hy)

/-- The label of a syntax fault is a piece of its source. -/
theorem SyntaxFault.slices {all : Tokens} (hall : ∀ t ∈ all, t.span.Slices source)
    (hne : all ≠ []) {f : SyntaxFault} (hfault : f.construct ++ f.rest <:+ all) :
    ∀ l ∈ (f.diagnostic all).labels, l.span.Slices source := by
  have hmem : ∀ t ∈ f.construct ++ f.rest, t.span.Slices source :=
    fun t ht => hall t (hfault.subset ht)
  cases hrest : f.rest with
  | cons t more =>
    obtain ⟨label, x, y, hlabels, hx, hy, hspan⟩ := exists_label all hrest
    have hconstruct : ∀ u ∈ f.construct ++ [t], u.span.Slices source := by
      refine fun u hu => hmem u (List.mem_append.2 ?_)
      rw [hrest]
      rcases List.mem_append.1 hu with hu | hu
      · exact Or.inl hu
      · exact Or.inr (List.mem_singleton.1 hu ▸ List.mem_cons_self)
    have ht : t.span.Slices source := hconstruct t (by simp)
    rw [hlabels]
    refine List.forall_mem_singleton.2 ?_
    rw [hspan]
    exact (hconstruct x hx).union ((hconstruct y hy).union ht)
  | nil =>
    unfold diagnostic syntaxDiagnostic
    rw [hrest]
    refine List.forall_mem_singleton.2 ?_
    cases hconstruct : spanOfAll? f.construct with
    | some span =>
      exact slices_of_spanOfAll? (fun t ht => hmem t (List.mem_append_left _ ht)) hconstruct
    | none =>
      cases all with
      | nil => exact absurd rfl hne
      | cons t ts => exact slices_of_spanOfAll? hall rfl

/-- The labels of a violation are pieces of the source of its program. -/
theorem Violation.slices {lexemes : List (Spanned Lexeme)} (ht : tokenize source = .ok lexemes)
    {p : Program} (hp : Program.ofTokens (meaningful lexemes) = .ok p)
    {options : ElaborationOptions} {w : Violation} (hw : p.elaborate options = .error w) :
    ∀ l ∈ w.diagnostic.labels, l.span.Slices source := by
  have hids : ∀ x ∈ identifiersOf p, x.span.Slices source := fun x hx =>
    slices_of_mem_identifiersIn (slices_of_mem_meaningful ht) x
      ((Reader.readProgram_taken hp).subset hx)
  have hsteps : ∀ x ∈ stepsOf p, x.span.Slices source := by
    intro x hx
    obtain ⟨a, b, hends, hspan⟩ := Reader.readProgram_spansEnds hp x hx
    have hmem : ∀ i ∈ [a, b], i.span.Slices source := fun i hi =>
      hids i ((identifiers_sublist_of_mem_stepsOf hx).subset (hends ▸ hi))
    rw [hspan]
    exact (hmem a List.mem_cons_self).union (hmem b (List.mem_cons_of_mem a List.mem_cons_self))
  exact Program.elaborate_points (P := fun s => s.Slices source) hids hsteps hw

/-! ## Compilations -/

/-- The spans of a diagnostic's labels are not empty and lie in the source, and begin between
characters. They also end between characters, unless the diagnostic is about an unexpected
character of more than one byte. -/
def Diagnostic.Marks (source : String) (d : Diagnostic) : Prop :=
  ∀ l ∈ d.labels, l.span.start < l.span.stop ∧ l.span.stop ≤ source.utf8ByteSize ∧
    (⟨l.span.start⟩ : String.Pos.Raw).IsValid source ∧
    ((⟨l.span.stop⟩ : String.Pos.Raw).IsValid source ↔
      (d.code = some .unexpectedCharacter →
        ∀ c, CharAt source l.span.start c → c.utf8Size = 1))

theorem Diagnostic.marks_of_slices {d : Diagnostic} (hcode : d.code ≠ some .unexpectedCharacter)
    (h : ∀ l ∈ d.labels, l.span.Slices source) : d.Marks source :=
  fun l hl => ⟨(h l hl).nonempty, (h l hl).stop.le_utf8ByteSize, (h l hl).start,
    iff_of_true (h l hl).stop fun heq => absurd heq hcode⟩

theorem LexicalFault.code_eq_iff {x : LexicalFault} :
    x.code = .unexpectedCharacter ↔ x = .unexpectedCharacter := by
  cases x <;> decide

theorem LexicalFault.marks {f : Spanned LexicalFault} (h : FaultIn 0 source.toList f) :
    (LexicalFault.diagnostic f).Marks source := by
  have hslices := h.slices_iff
  rw [← LexicalFault.code_eq_iff] at hslices
  refine List.forall_mem_singleton.2 ?_
  simp only [diagnostic, Option.some.injEq]
  exact hslices

theorem SyntaxFault.code_ne {all : Tokens} {f : SyntaxFault} :
    (f.diagnostic all).code ≠ some .unexpectedCharacter := by
  unfold diagnostic syntaxDiagnostic
  split <;> simp

theorem Violation.code_ne {w : Violation} : w.diagnostic.code ≠ some .unexpectedCharacter := by
  cases w <;> simp [diagnostic, code]

theorem Program.ofTokens_nil : Program.ofTokens [] = .ok [] := by
  rw [Program.ofTokens, Reader.readProgram, Reader.readStatement_nil]

/-- The diagnostics of a source mark it. -/
theorem marks_of_compile {options : ElaborationOptions} {ds : List Diagnostic}
    (h : compile options source = .error ds) : ∀ d ∈ ds, d.Marks source := by
  rcases compile_eq_error_iff.1 h with ⟨fs, ht, rfl⟩ | ⟨lexemes, f, ht, hf, rfl⟩ |
    ⟨lexemes, p, w, ht, hp, hw, rfl⟩
  · obtain ⟨_, rfl⟩ := tokenize_eq_error_iff.1 ht
    refine List.forall_mem_map.2 fun f hf => ?_
    exact LexicalFault.marks (Lexer.faultIn_of_mem_faults 0 source.toList f hf)
  · have hne : meaningful lexemes ≠ [] := by
      intro hnil
      rw [hnil, Program.ofTokens_nil] at hf
      cases hf
    have hfault := (Reader.readProgram_error (List.suffix_refl _) hf).1
    exact List.forall_mem_singleton.2 (Diagnostic.marks_of_slices SyntaxFault.code_ne
      (SyntaxFault.slices (slices_of_mem_meaningful ht) hne hfault))
  · exact List.forall_mem_singleton.2
      (Diagnostic.marks_of_slices Violation.code_ne (Violation.slices ht hp hw))

/-- Every label of a source that does not compile begins between characters, is not empty and
lies in the source. It ends between characters, unless it is that of an unexpected character
of more than one byte. The regions of the reports lie in the source that they are shown with. -/
theorem compile_labels {options : ElaborationOptions} {ds : List Diagnostic}
    (h : compile options source = .error ds) :
    (∀ d ∈ ds, ∀ l ∈ d.labels,
      l.span.start < l.span.stop ∧ l.span.stop ≤ source.utf8ByteSize ∧
      (⟨l.span.start⟩ : String.Pos.Raw).IsValid source ∧
      ((⟨l.span.stop⟩ : String.Pos.Raw).IsValid source ↔
        (d.code = some .unexpectedCharacter →
          ∀ c, CharAt source l.span.start c → c.utf8Size = 1))) ∧
    ∀ r ∈ (Failure.source ds source).reports, r.source = some source ∧
      ∀ l ∈ r.labels, 0 < l.span.size ∧ l.span.start + l.span.size ≤ source.utf8ByteSize := by
  have hmarks : ∀ d ∈ ds, d.Marks source := marks_of_compile h
  refine ⟨hmarks, ?_⟩
  rintro r hr
  obtain ⟨d, hd, rfl⟩ := List.mem_map.1 hr
  refine ⟨rfl, fun l hl => ?_⟩
  obtain ⟨hnonempty, hsize, _⟩ := hmarks d hd l hl
  simp only [Span.size]
  omega

/-- A text literal without its end, after one that has it. -/
def openText : String := "'é' 'é"

/-- The open text is marked, from its quote to the end of the source. -/
theorem compile_labels_openText :
    ∃ ds d l, compile .default openText = .error ds ∧ d ∈ ds ∧ l ∈ d.labels ∧
      l.span = .ofSize 5 3 ∧ (⟨5⟩ : String.Pos.Raw).IsValid openText ∧
      (⟨8⟩ : String.Pos.Raw).IsValid openText := by
  have hfaults : tokenize openText = .error [⟨.unterminatedText, .ofSize 5 3⟩] :=
    tokenize_eq_error_iff.2 ⟨nofun, by decide +kernel⟩
  have h : compile .default openText =
      .error [LexicalFault.diagnostic ⟨.unterminatedText, .ofSize 5 3⟩] :=
    compile_eq_error_iff.2 (Or.inl ⟨_, hfaults, rfl⟩)
  obtain ⟨_, _, hstart, hstop⟩ :=
    (compile_labels h).1 _ List.mem_cons_self _ List.mem_cons_self
  exact ⟨_, _, _, h, List.mem_cons_self, List.mem_cons_self, rfl, hstart, hstop.2 nofun⟩

/-- An unexpected character of two bytes. -/
def accent : String := "é"

/-- Its label ends inside the character. -/
theorem accent_label_not_isValid :
    ∃ ds d l, compile .default accent = .error ds ∧ d ∈ ds ∧ l ∈ d.labels ∧
      ¬ (⟨l.span.stop⟩ : String.Pos.Raw).IsValid accent := by
  have hfaults : tokenize accent = .error [⟨.unexpectedCharacter, .ofSize 0 1⟩] :=
    tokenize_eq_error_iff.2 ⟨nofun, by decide +kernel⟩
  have h : compile .default accent =
      .error [LexicalFault.diagnostic ⟨.unexpectedCharacter, .ofSize 0 1⟩] :=
    compile_eq_error_iff.2 (Or.inl ⟨_, hfaults, rfl⟩)
  have hat : CharAt accent 0 'é' := ⟨[], [], by decide +kernel, rfl⟩
  refine ⟨_, _, _, h, List.mem_cons_self, List.mem_cons_self, fun hstop => ?_⟩
  exact absurd (hat.isValid_succ_iff.1 hstop) (by decide)

end ArchScript
