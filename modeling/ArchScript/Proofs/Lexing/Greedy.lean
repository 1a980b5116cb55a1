/-
  The lexer is the greedy tokenizer.

  `Greedy cs ps` cuts the longest lexeme off `cs` again and again until nothing is left.
  `tokenize_greedy` says that a source has lexemes exactly when it can be cut up like that
  without a carriage return in a text literal, and that the lexemes are the pieces, span
  after span from its first byte to its last.
-/
import ArchScript.Proofs.Compile
import ArchScript.Proofs.Lexing.Longest

namespace ArchScript

/-! ## Cutting a text up -/

/-- A lexeme and the characters that write it. -/
structure Piece where
  lexeme : Lexeme
  chars : List Char
deriving DecidableEq

/-- The pieces are what is cut off the text when its longest lexeme is cut off each time. -/
inductive Greedy : List Char → List Piece → Prop
  | nil : Greedy [] []
  | cons {p : Piece} {cs rest : List Char} {ps : List Piece} (hcs : p.chars ++ rest = cs)
    (hp : Longest p.lexeme p.chars cs) (hrest : Greedy rest ps) : Greedy cs (p :: ps)

/-- The lexemes of pieces with the spans that they take up from the offset `pos` on. -/
def placed (pos : Nat) : List Piece → List (Spanned Lexeme)
  | [] => []
  | p :: ps =>
    ⟨p.lexeme, .ofSize pos (Text.byteLength p.chars)⟩ ::
      placed (pos + Text.byteLength p.chars) ps

theorem placed_map_value (pos : Nat) (ps : List Piece) :
    (placed pos ps).map Spanned.value = ps.map Piece.lexeme := by
  induction ps generalizing pos with
  | nil => rfl
  | cons p ps ih => rw [placed, List.map_cons, List.map_cons, ih]

/-- The spans lie between two offsets: each begins where the one before it ends, none is
empty, and nothing is left over. -/
def Covers (start stop : Nat) : List Span → Prop
  | [] => start = stop
  | s :: ss => s.start = start ∧ s.start < s.stop ∧ Covers s.stop stop ss

/-- A lexeme stands in the text `cs` where its span says, and is the longest there. -/
def StandsIn (cs : List Char) (pos : Nat) (l : Spanned Lexeme) : Prop :=
  ∃ before w after, cs = before ++ (w ++ after) ∧ Longest l.value w (w ++ after) ∧
    l.span = .ofSize (pos + Text.byteLength before) (Text.byteLength w)

namespace Greedy

variable {cs : List Char} {ps : List Piece}

theorem covers (h : Greedy cs ps) (pos : Nat) :
    Covers pos (pos + Text.byteLength cs) ((placed pos ps).map Spanned.span) := by
  induction h generalizing pos with
  | nil => rfl
  | @cons p cs rest ps hcs hp _ ih =>
    have hpos := Text.byteLength_pos hp.spells.ne_nil
    refine ⟨rfl, Nat.lt_add_of_pos_right hpos, ?_⟩
    rw [← hcs, Text.byteLength_append, ← Nat.add_assoc]
    exact ih (pos + Text.byteLength p.chars)

theorem standsIn (h : Greedy cs ps) (pos : Nat) : ∀ l ∈ placed pos ps, StandsIn cs pos l := by
  induction h generalizing pos with
  | nil => exact fun l hl => (List.not_mem_nil hl).elim
  | @cons p cs rest ps hcs hp _ ih =>
    subst hcs
    refine List.forall_mem_cons.2 ⟨⟨[], p.chars, rest, rfl, hp, rfl⟩, fun l hl => ?_⟩
    obtain ⟨before, w, after, rfl, hw, hspan⟩ := ih (pos + Text.byteLength p.chars) l hl
    refine ⟨p.chars ++ before, w, after, (List.append_assoc _ _ _).symm, hw, ?_⟩
    rw [hspan, Text.byteLength_append, Nat.add_assoc]

end Greedy

namespace Lexer

/-! ## Findings -/

theorem faults_cons_lexeme {f : Spanned Finding} {l : Lexeme} (h : f.value = .lexeme l)
    (fs : List (Spanned Finding)) : faults (f :: fs) = faults fs := by
  simp [faults, h]

theorem faults_cons_fault {f : Spanned Finding} {x : LexicalFault} (h : f.value = .fault x)
    (fs : List (Spanned Finding)) : faults (f :: fs) = ⟨x, f.span⟩ :: faults fs := by
  simp [faults, h]

theorem lexemes_cons_lexeme {f : Spanned Finding} {l : Lexeme} (h : f.value = .lexeme l)
    (fs : List (Spanned Finding)) : lexemes (f :: fs) = ⟨l, f.span⟩ :: lexemes fs := by
  simp [lexemes, h]

theorem lexemes_cons_fault {f : Spanned Finding} {x : LexicalFault} (h : f.value = .fault x)
    (fs : List (Spanned Finding)) : lexemes (f :: fs) = lexemes fs := by
  simp [lexemes, h]

/-- A scan without faults cuts the text up. -/
theorem exists_greedy_of_scan (pos : Nat) (cs : List Char) (h : faults (scan pos cs) = []) :
    ∃ ps, Greedy cs ps ∧ (∀ p ∈ ps, p.lexeme.Unbroken) ∧ lexemes (scan pos cs) = placed pos ps := by
  fun_induction scan pos cs with
  | case1 => exact ⟨[], .nil, fun p hp => (List.not_mem_nil hp).elim, rfl⟩
  | case2 pos c cs r ih =>
    have hcuts : r.Cuts pos := readFront_cuts pos c cs
    unfold Reading.Cuts at hcuts
    split at hcuts
    · next l hl =>
      obtain ⟨hlongest, hunbroken, hspan⟩ := hcuts
      rw [faults_cons_lexeme hl] at h
      obtain ⟨ps, hps, hall, heq⟩ := ih h
      refine ⟨⟨l, r.taken⟩ :: ps, .cons r.split hlongest hps,
        List.forall_mem_cons.2 ⟨hunbroken, hall⟩, ?_⟩
      rw [lexemes_cons_lexeme hl, heq, hspan]
      rfl
    · next x hx =>
      rw [faults_cons_fault hx] at h
      cases h

/-- Where an unbroken lexeme is the longest, it is found, and the rest is scanned behind it. -/
theorem scan_of_longest (pos : Nat) {l : Lexeme} {w cs rest : List Char} (h : Longest l w cs)
    (hunbroken : l.Unbroken) (hcs : w ++ rest = cs) :
    scan pos cs =
      ⟨.lexeme l, .ofSize pos (Text.byteLength w)⟩ :: scan (pos + Text.byteLength w) rest := by
  cases cs with
  | nil => exact (h.spells.ne_nil (List.append_eq_nil_iff.1 hcs).1).elim
  | cons c cs =>
    have hcuts := readFront_cuts pos c cs
    rw [scan]
    unfold Reading.Cuts at hcuts
    split at hcuts
    · next l' hl' =>
      obtain ⟨hlongest, _, hspan⟩ := hcuts
      obtain ⟨rfl, htaken⟩ := h.unique hlongest
      have hrest : (readFront pos c cs).rest = rest := by
        refine (List.append_right_inj w).1 ?_
        rw [hcs, htaken]
        exact (readFront pos c cs).split
      have hfound : (readFront pos c cs).found = ⟨.lexeme l, .ofSize pos (Text.byteLength w)⟩ := by
        rw [htaken, ← hl', ← hspan]
      rw [hfound, hrest, ← htaken]
    · exact (hcuts _ _ h.spells h.front hunbroken).elim

/-- A text that is cut up is scanned without faults, piece by piece. -/
theorem scan_of_greedy {cs : List Char} {ps : List Piece} (h : Greedy cs ps)
    (hall : ∀ p ∈ ps, p.lexeme.Unbroken) (pos : Nat) :
    faults (scan pos cs) = [] ∧ lexemes (scan pos cs) = placed pos ps := by
  induction h generalizing pos with
  | nil =>
    rw [scan]
    exact ⟨rfl, rfl⟩
  | @cons p cs rest ps hcs hp _ ih =>
    obtain ⟨hunbroken, hall⟩ := List.forall_mem_cons.1 hall
    obtain ⟨hfaults, hlexemes⟩ := ih hall (pos + Text.byteLength p.chars)
    rw [scan_of_longest pos hp hunbroken hcs, faults_cons_lexeme rfl, lexemes_cons_lexeme rfl]
    exact ⟨hfaults, congrArg _ hlexemes⟩

end Lexer

/-! ## Sources -/

theorem tokenize_eq_ok_iff {source : String} {ls : List (Spanned Lexeme)} :
    tokenize source = .ok ls ↔ Lexer.faults (Lexer.scan 0 source.toList) = [] ∧
      Lexer.lexemes (Lexer.scan 0 source.toList) = ls := by
  unfold tokenize
  dsimp only
  split
  · next h => rw [h, Except.ok.injEq, and_iff_right rfl]
  · next h =>
    constructor
    · intro hok
      cases hok
    · rintro ⟨hfaults, _⟩
      exact (h hfaults).elim

/-- The lexemes of a source are its pieces. -/
theorem tokenize_eq_ok_iff_greedy {source : String} {ls : List (Spanned Lexeme)} :
    tokenize source = .ok ls ↔ ∃ ps, Greedy source.toList ps ∧ (∀ p ∈ ps, p.lexeme.Unbroken) ∧
      ls = placed 0 ps := by
  rw [tokenize_eq_ok_iff]
  constructor
  · rintro ⟨hfaults, rfl⟩
    exact Lexer.exists_greedy_of_scan 0 source.toList hfaults
  · rintro ⟨ps, hps, hall, rfl⟩
    exact Lexer.scan_of_greedy hps hall 0

/-- An offset after a part of a source is a boundary between two characters. -/
theorem isValid_byteLength {source : String} {before after : List Char}
    (h : source.toList = before ++ after) :
    (⟨Text.byteLength before⟩ : String.Pos.Raw).IsValid source := by
  rw [String.Pos.Raw.isValid_iff_exists_append]
  refine ⟨String.ofList before, String.ofList after, ?_, ?_⟩
  · rw [← String.ofList_append, ← h, String.ofList_toList]
  · rw [← Text.utf8ByteSize_ofList]
    rfl

/-- When a source is cut up, its lexemes take up all its bytes, span after span, and every
span begins and ends between characters. Each lexeme is the longest that any class has where
it stands; it is a keyword exactly when it is a reserved word as a whole. A source is cut up
exactly when the greedy tokenizer reaches its end and meets no text literal with a carriage
return, and then its lexemes are the pieces. -/
theorem tokenize_greedy (source : String) :
    (∀ ls, tokenize source = .ok ls →
      Covers 0 source.utf8ByteSize (ls.map Spanned.span) ∧
      ∀ l ∈ ls, (⟨l.span.start⟩ : String.Pos.Raw).IsValid source ∧
        (⟨l.span.stop⟩ : String.Pos.Raw).IsValid source ∧
        ∃ before w after, source.toList = before ++ (w ++ after) ∧
          l.span = .ofSize (Text.byteLength before) (Text.byteLength w) ∧
          Longest l.value w (w ++ after) ∧
          ∀ k : Keyword, l.value = .token (.keyword k) ↔ String.ofList w = k.text) ∧
    ∀ ls, tokenize source = .ok ls ↔ ∃ ps, Greedy source.toList ps ∧
      (∀ p ∈ ps, p.lexeme.Unbroken) ∧ ls = placed 0 ps := by
  refine ⟨fun ls h => ?_, fun ls => tokenize_eq_ok_iff_greedy⟩
  obtain ⟨ps, hps, _, rfl⟩ := tokenize_eq_ok_iff_greedy.1 h
  refine ⟨?_, fun l hl => ?_⟩
  · have hcovers := hps.covers 0
    rw [Text.byteLength_toList, Nat.zero_add] at hcovers
    exact hcovers
  · obtain ⟨before, w, after, hsource, hlongest, hspan⟩ := hps.standsIn 0 l hl
    rw [Nat.zero_add] at hspan
    have hstop : source.toList = (before ++ w) ++ after := by rw [hsource, List.append_assoc]
    refine ⟨?_, ?_, before, w, after, hsource, hspan, hlongest, hlongest.keyword_iff⟩
    · rw [hspan]
      exact isValid_byteLength hsource
    · have hvalid := isValid_byteLength hstop
      rw [Text.byteLength_append] at hvalid
      rw [hspan]
      exact hvalid

/-- Signs that run into each other, and words that begin like reserved words. -/
def overlappingSigns : String := "a--<-b<--->--c agents agent//-->"

/-- The longest sign is taken each time, and a reserved word only as a whole. -/
theorem tokenize_greedy_overlappingSigns :
    ∃ ls, tokenize overlappingSigns = .ok ls ∧
      ls.map Spanned.value =
        [.token (.identifier "a"), .token (.sign .responseArrow), .token (.sign .dash),
          .token (.identifier "b"), .token (.sign .readArrow), .token (.sign .arrow),
          .token (.sign .doubleDash), .token (.identifier "c"), .blanks,
          .token (.identifier "agents"), .blanks, .token (.keyword .agent), .comment "-->"] ∧
      Covers 0 32 (ls.map Spanned.span) := by
  have hlexemes : (tokenize overlappingSigns).toOption.map (fun ls => ls.map Spanned.value) =
      some [.token (.identifier "a"), .token (.sign .responseArrow), .token (.sign .dash),
        .token (.identifier "b"), .token (.sign .readArrow), .token (.sign .arrow),
        .token (.sign .doubleDash), .token (.identifier "c"), .blanks,
        .token (.identifier "agents"), .blanks, .token (.keyword .agent), .comment "-->"] := by
    decide +kernel
  obtain ⟨ls, h, hvalues⟩ := exists_ok_of_toOption hlexemes
  exact ⟨ls, h, hvalues, ((tokenize_greedy overlappingSigns).1 ls h).1⟩

/-- A text literal with a carriage return, before a block. -/
def returnInText : String := "'\r' \x7b\x7d;"

/-- The greedy tokenizer cuts it up, but it has no lexemes. -/
theorem returnInText_not_tokenized :
    (∃ ps, Greedy returnInText.toList ps) ∧ ¬ ∃ ls, tokenize returnInText = .ok ls := by
  have htext : Inside ['\r'] ['\r'] := .plain (by decide) (by decide) (by decide) .nil
  have hrest : (tokenize " \x7b\x7d;").toOption.map (fun _ => ()) = some () := by decide +kernel
  have hnone : (tokenize returnInText).toOption = none := by decide +kernel
  obtain ⟨ls, h, _⟩ := exists_ok_of_toOption hrest
  obtain ⟨ps, hps, _⟩ := tokenize_eq_ok_iff_greedy.1 h
  refine ⟨⟨_, .cons (p := ⟨.token (.text "\r"), ['\'', '\r', '\'']⟩) rfl
    (htext.longest " \x7b\x7d;".toList) hps⟩, ?_⟩
  rintro ⟨ls, hls⟩
  rw [hls] at hnone
  cases hnone

end ArchScript
