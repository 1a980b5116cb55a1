/-
  The lexer always goes on.

  `Stage` is the lexer between two iterations, and `Stage.next` is one iteration. That an iteration
  uses something up does not show in the loop. A lexeme is never empty, and the character that no
  lexeme begins with is skipped; but at the end of a line or of the source the recovery from a
  fault may skip nothing. It then stands behind a text literal that was begun, so the opening quote
  was taken at least (`GivesUp.ne_nil`).

  So each iteration uses up a character and collects one thing (`Stage.exists_advances`), the loop
  ends after at most as many iterations as there are characters (`Stage.exists_end`), and what it
  has collected then is the answer of the lexer (`tokenize_progress`).
-/
import ArchScript.Proofs.Lexing.Faults
import Mathlib.Logic.Function.Iterate

namespace ArchScript

namespace Lexer

/-! ## Where a reading gives up -/

/-- A reading that finds a fault took the characters `read` and gave up in front of `left`. -/
inductive GivesUp : LexicalFault → List Char → List Char → Prop
  /-- no lexeme begins here, and nothing was taken -/
  | unexpected {c : Char} {cs : List Char} (h : ∀ l w, Spells l w → ¬ w <+: c :: cs) :
    GivesUp .unexpectedCharacter [] (c :: cs)
  /-- the line or the source ends in a text literal -/
  | atLineEnd {v w left : List Char} (h : Inside v w) (hreturn : '\r' ∉ v)
    (hleft : ∀ c ∈ left.head?, isLineEnd c = true) :
    GivesUp .unterminatedText ('\'' :: w) left
  /-- a backslash in a text literal begins no escape with what follows it -/
  | afterBackslash {v w left : List Char} (h : Inside v w) (hreturn : '\r' ∉ v)
    (hleft : ∀ e ∈ left.head?, escaped? e = none) :
    GivesUp .invalidEscape ('\'' :: (w ++ ['\\'])) left

/-- What is skipped behind a fault: after a bad escape the rest of the literal, and else one
character if there is one. -/
def skipped : LexicalFault → List Char → List Char
  | .invalidEscape, left => brokenText left
  | _, left => left.take 1

/-- A fault uses something up, even where nothing is skipped. -/
theorem GivesUp.ne_nil {x : LexicalFault} {read left : List Char} (h : GivesUp x read left) :
    read ++ skipped x left ≠ [] := by
  cases h with
  | unexpected _ => exact List.cons_ne_nil _ _
  | atLineEnd _ _ _ => exact List.cons_ne_nil _ _
  | afterBackslash _ _ _ => exact List.cons_ne_nil _ _

/-! ## Readings that find a fault -/

/-- The inside of a text literal breaks off: what was read is whole, up to a backslash that begins
no escape. -/
def TextScan.BreaksOff (s : TextScan) : Prop :=
  ∃ w, Inside s.value w ∧ '\r' ∉ s.value ∧
    ((s.ending = .unterminated ∧ s.taken = w ∧ ∀ c ∈ s.rest.head?, isLineEnd c = true) ∨
      (s.ending = .badEscape ∧ s.taken = w ++ ['\\'] ∧ ∀ e ∈ s.rest.head?, escaped? e = none))

theorem TextScan.BreaksOff.push {s : TextScan} (h : s.BreaksOff) {read : List Char} {x : Char}
    (hread : ∀ w, Inside s.value w → Inside (x :: s.value) (read ++ w)) (hx : x ≠ '\r') :
    (s.push read x).BreaksOff := by
  obtain ⟨w, hinside, hreturn, hend⟩ := h
  refine ⟨read ++ w, hread w hinside,
    List.not_mem_cons_of_ne_of_not_mem (Ne.symm hx) hreturn, ?_⟩
  rcases hend with ⟨hend, htaken, hleft⟩ | ⟨hend, htaken, hleft⟩
  · exact Or.inl ⟨hend, congrArg (read ++ ·) htaken, hleft⟩
  · refine Or.inr ⟨hend, ?_, hleft⟩
    rw [List.append_assoc, ← htaken]
    rfl

/-- A text literal that is not read to its closing quote breaks off. -/
theorem scanText_breaksOff {cs : List Char} (h : (scanText cs).ending ≠ .closed) :
    (scanText cs).BreaksOff := by
  fun_induction scanText cs with
  | case1 =>
    refine ⟨[], .nil, List.not_mem_nil, Or.inl ⟨rfl, rfl, fun d hd => ?_⟩⟩
    cases hd
  | case2 => exact (h rfl).elim
  | case3 =>
    refine ⟨[], .nil, List.not_mem_nil, Or.inr ⟨rfl, rfl, fun d hd => ?_⟩⟩
    cases hd
  | case4 e cs x hx ih =>
    have he := escaped?_eq_some_iff.1 hx
    exact (ih h).push (fun w hw => .escape he hw) (escape_ne_return he)
  | case5 e cs he =>
    refine ⟨[], .nil, List.not_mem_nil, Or.inr ⟨rfl, rfl, fun d hd => ?_⟩⟩
    cases hd
    exact he
  | case6 c cs _ _ _ hend =>
    refine ⟨[], .nil, List.not_mem_nil, Or.inl ⟨rfl, rfl, fun d hd => ?_⟩⟩
    cases hd
    exact hend
  | case7 c cs hquote hlast hslash hend ih =>
    rw [isLineEnd, Bool.or_eq_true, beq_iff_eq, beq_iff_eq, not_or] at hend
    exact (ih h).push (fun w hw => .plain hquote (ne_backslash hlast hslash) hend.1 hw) hend.2

/-- A reading that finds a fault uses up what was read and what is skipped then. -/
def Reading.Recovers {cs : List Char} (r : Reading cs) : Prop :=
  ∀ x, r.found.value = .fault x → ∃ read left, cs = read ++ left ∧ GivesUp x read left ∧
    r.taken = read ++ skipped x left

theorem readText_recovers (pos : Nat) (cs : List Char) : (readText pos cs).Recovers := by
  have hsplit : '\'' :: cs = '\'' :: (scanText cs).taken ++ (scanText cs).rest := by
    rw [List.cons_append, scanText_split]
  unfold readText
  dsimp only
  split
  · rintro x ⟨⟩
  · next hend =>
    rintro x ⟨⟩
    have hopen : (scanText cs).ending ≠ .closed := by rw [hend]; nofun
    obtain ⟨w, hinside, hreturn, ⟨_, htaken, hleft⟩ | ⟨hend', _⟩⟩ := scanText_breaksOff hopen
    · refine ⟨_, _, hsplit, ?_, rfl⟩
      rw [htaken]
      exact .atLineEnd hinside hreturn hleft
    · cases hend.symm.trans hend'
  · next hend =>
    rintro x ⟨⟩
    have hopen : (scanText cs).ending ≠ .closed := by rw [hend]; nofun
    obtain ⟨w, hinside, hreturn, ⟨hend', _⟩ | ⟨_, htaken, hleft⟩⟩ := scanText_breaksOff hopen
    · cases hend.symm.trans hend'
    · refine ⟨_, _, hsplit, ?_, rfl⟩
      rw [htaken]
      exact .afterBackslash hinside hreturn hleft

/-- Where no sign and no comment is found, and no quote stands, no lexeme begins. -/
theorem readSign_recovers {pos : Nat} {c : Char} {cs : List Char} (hquote : c ≠ '\'')
    (hcuts : (readSign pos c cs).Cuts pos) : (readSign pos c cs).Recovers := by
  intro x hx
  have hnone : ∀ l w, Spells l w → ¬ w <+: c :: cs := by
    intro l w hl hw
    rw [Reading.Cuts, hx] at hcuts
    have hbroken := hcuts l w hl hw
    cases hl with
    | text _ => exact hquote (List.cons_prefix_cons.1 hw).1.symm
    | _ => exact hbroken trivial
  unfold readSign at hx ⊢
  split at hx
  · cases hx
  · cases hx
    exact ⟨[], c :: cs, rfl, .unexpected hnone, rfl⟩

theorem readFront_recovers (pos : Nat) (c : Char) (cs : List Char) :
    (readFront pos c cs).Recovers := by
  have hcuts := readFront_cuts pos c cs
  revert hcuts
  unfold readFront
  split
  · rintro _ x ⟨⟩
  · exact fun _ => readText_recovers pos _
  · next hquote _ =>
    split
    · rintro _ x ⟨⟩
    · split
      · rintro _ x ⟨⟩
      · split
        · rintro _ x ⟨⟩
        · exact readSign_recovers hquote

/-! ## Iterations -/

/-- The lexer between two iterations. -/
structure Stage where
  lexemes : List (Spanned Lexeme)
  faults : List (Spanned LexicalFault)
  /-- where the characters begin that are left -/
  offset : Nat
  rest : List Char

namespace Stage

def start (source : String) : Stage :=
  { lexemes := [], faults := [], offset := 0, rest := source.toList }

def collect (s : Stage) (f : Spanned Finding) : Stage :=
  match f.value with
  | .lexeme l => { s with lexemes := s.lexemes ++ [⟨l, f.span⟩] }
  | .fault x => { s with faults := s.faults ++ [⟨x, f.span⟩] }

/-- One iteration; nothing changes at the end of the source. -/
def next (s : Stage) : Stage :=
  match s.rest with
  | [] => s
  | c :: cs =>
    let r := readFront s.offset c cs
    { s.collect r.found with offset := s.offset + Text.byteLength r.taken, rest := r.rest }

/-- The answer of a lexer that has come to the end. -/
def outcome (s : Stage) : Except (List (Spanned LexicalFault)) (List (Spanned Lexeme)) :=
  match s.faults with
  | [] => .ok s.lexemes
  | faults => .error faults

/-- The number of the things collected. -/
def collected (s : Stage) : Nat := s.lexemes.length + s.faults.length

/-- An iteration from `s` to `s'` uses up the characters `w`. They are those of the longest lexeme
at the front, which is collected; or those that were read up to a fault, which is collected, and
those that are skipped then. -/
inductive Advances (w : List Char) (s s' : Stage) : Prop
  | lexeme (l : Lexeme) (h : Longest l w s.rest)
    (hlexemes : s'.lexemes = s.lexemes ++ [⟨l, .ofSize s.offset (Text.byteLength w)⟩])
    (hfaults : s'.faults = s.faults)
  | fault (x : Spanned LexicalFault) (read left : List Char) (hrest : s.rest = read ++ left)
    (h : GivesUp x.value read left) (hw : w = read ++ skipped x.value left)
    (hlexemes : s'.lexemes = s.lexemes) (hfaults : s'.faults = s.faults ++ [x])

variable {s s' : Stage} {w : List Char}

/-- No iteration is without use. -/
theorem Advances.ne_nil (h : Advances w s s') : w ≠ [] := by
  cases h with
  | lexeme l h _ _ => exact h.spells.ne_nil
  | fault x read left _ h hw _ _ =>
    rw [hw]
    exact h.ne_nil

theorem Advances.collected (h : Advances w s s') : s'.collected = s.collected + 1 := by
  cases h with
  | lexeme l _ hlexemes hfaults =>
    rw [Stage.collected, hlexemes, hfaults, List.length_append, List.length_singleton,
      Nat.add_right_comm]
    rfl
  | fault x _ _ _ _ _ hlexemes hfaults =>
    rw [Stage.collected, hlexemes, hfaults, List.length_append, List.length_singleton,
      ← Nat.add_assoc]
    rfl

theorem next_cons {c : Char} {cs : List Char} (h : s.rest = c :: cs) :
    s.next = { s.collect (readFront s.offset c cs).found with
      offset := s.offset + Text.byteLength (readFront s.offset c cs).taken
      rest := (readFront s.offset c cs).rest } := by
  rw [next, h]

/-- As long as something is left, an iteration advances. -/
theorem exists_advances (h : s.rest ≠ []) :
    ∃ w, Advances w s s.next ∧ s.rest = w ++ s.next.rest ∧
      s.next.offset = s.offset + Text.byteLength w := by
  obtain ⟨c, cs, hrest⟩ := List.exists_cons_of_ne_nil h
  have hcuts := readFront_cuts s.offset c cs
  have hrecovers := readFront_recovers s.offset c cs
  have hsplit := (readFront s.offset c cs).split
  rw [next_cons hrest]
  generalize readFront s.offset c cs = r at hcuts hrecovers hsplit ⊢
  refine ⟨r.taken, ?_, hrest.trans hsplit.symm, rfl⟩
  cases hfound : r.found.value with
  | lexeme l =>
    rw [Reading.Cuts, hfound] at hcuts
    obtain ⟨hlongest, _, hspan⟩ := hcuts
    have hfront : Longest l r.taken s.rest := by
      rw [hrest]
      exact hlongest
    refine .lexeme l hfront ?_ ?_
    · simp only [collect, hfound, hspan]
    · simp only [collect, hfound]
  | fault x =>
    obtain ⟨read, left, hread, hgives, htaken⟩ := hrecovers x hfound
    refine .fault ⟨x, r.found.span⟩ read left (hrest.trans hread) hgives htaken ?_ ?_
    · simp only [collect, hfound]
    · simp only [collect, hfound]

/-! ## The whole loop -/

/-- The loop ends: after at most as many iterations as there are characters nothing is left, and
each of them has collected one thing. -/
theorem exists_end (s : Stage) :
    ∃ n ≤ s.rest.length, (∀ i < n, (next^[i] s).rest ≠ []) ∧ (next^[n] s).rest = [] ∧
      (next^[n] s).collected = s.collected + n := by
  induction hlength : s.rest.length using Nat.strong_induction_on generalizing s with
  | _ length ih =>
    subst hlength
    by_cases h : s.rest = []
    · exact ⟨0, Nat.zero_le _, nofun, h, rfl⟩
    · obtain ⟨w, hadvances, hrest, _⟩ := exists_advances h
      have hw := List.length_pos_iff.2 hadvances.ne_nil
      have hlength := congrArg List.length hrest
      rw [List.length_append] at hlength
      obtain ⟨n, hn, hgoes, hend, hcollected⟩ := ih _ (by omega) s.next rfl
      refine ⟨n + 1, by omega, fun i hi => ?_, hend, ?_⟩
      · cases i with
        | zero => exact h
        | succ i => exact hgoes i (by omega)
      · rw [Function.iterate_succ_apply, hcollected, hadvances.collected, Nat.add_assoc,
          Nat.add_comm 1]

/-- What is collected in the end: what is collected now, and what a scan finds in the rest. -/
def results (s : Stage) : List (Spanned Lexeme) × List (Spanned LexicalFault) :=
  (s.lexemes ++ Lexer.lexemes (scan s.offset s.rest),
    s.faults ++ Lexer.faults (scan s.offset s.rest))

theorem results_next (s : Stage) : s.next.results = s.results := by
  cases hrest : s.rest with
  | nil => rw [next, hrest]
  | cons c cs =>
    rw [next_cons hrest, results, results, hrest, scan]
    cases hfound : (readFront s.offset c cs).found.value with
    | lexeme l =>
      rw [lexemes_cons_lexeme hfound, faults_cons_lexeme hfound]
      simp only [collect, hfound, List.append_assoc, List.singleton_append]
    | fault x =>
      rw [lexemes_cons_fault hfound, faults_cons_fault hfound]
      simp only [collect, hfound, List.append_assoc, List.singleton_append]

theorem results_iterate (s : Stage) (n : Nat) : (next^[n] s).results = s.results := by
  induction n generalizing s with
  | zero => rfl
  | succ n ih => rw [Function.iterate_succ_apply, ih, results_next]

/-- Once nothing is left, the answer of the lexer is what has been collected. -/
theorem tokenize_eq_outcome {source : String} (hend : s.rest = [])
    (hresults : s.results = (start source).results) : tokenize source = s.outcome := by
  have hscan : Lexer.scan s.offset [] = [] := by rw [scan]
  rw [results, hend, hscan, Prod.mk.injEq] at hresults
  obtain ⟨hlexemes, hfaults⟩ := hresults
  have hlexemes' : s.lexemes = Lexer.lexemes (scan 0 source.toList) :=
    (List.append_nil _).symm.trans hlexemes
  have hfaults' : s.faults = Lexer.faults (scan 0 source.toList) :=
    (List.append_nil _).symm.trans hfaults
  rw [outcome, hlexemes', hfaults']
  rfl

/-- The lexer stands where the characters begin that it has not read yet. -/
def ReadsIn (source : String) (s : Stage) : Prop :=
  ∃ before, source.toList = before ++ s.rest ∧ s.offset = Text.byteLength before

theorem ReadsIn.next {source : String} (h : s.ReadsIn source) : s.next.ReadsIn source := by
  by_cases hend : s.rest = []
  · rw [Stage.next, hend]
    exact h
  · obtain ⟨before, hsource, hoffset⟩ := h
    obtain ⟨w, _, hrest, hnext⟩ := exists_advances hend
    refine ⟨before ++ w, ?_, ?_⟩
    · rw [hsource, hrest, List.append_assoc]
    · rw [hnext, hoffset, Text.byteLength_append]

/-- The lexer after a number of iterations on a source. -/
def after (source : String) (n : Nat) : Stage := next^[n] (start source)

theorem after_succ (source : String) (n : Nat) : after source (n + 1) = (after source n).next :=
  Function.iterate_succ_apply' next n (start source)

theorem readsIn_after (source : String) (n : Nat) : (after source n).ReadsIn source := by
  induction n with
  | zero => exact ⟨[], rfl, rfl⟩
  | succ n ih =>
    rw [after_succ]
    exact ih.next

end Stage

end Lexer

open Lexer

/-- The lexer comes to the end of every source. Each iteration begins between two characters and
uses up at least one, whether it finds a lexeme or a fault, wherever the reading of a literal gave
up and however little is skipped then; and it collects that one lexeme or fault. So there are as
many iterations as lexemes and faults, at most one for each character, and these are the answer. -/
theorem tokenize_progress (source : String) :
    ∃ n ≤ source.length,
      (∀ i < n, ∃ w ≠ [], Stage.Advances w (Stage.after source i) (Stage.after source (i + 1)) ∧
        (Stage.after source i).rest = w ++ (Stage.after source (i + 1)).rest ∧
        (Stage.after source (i + 1)).offset =
          (Stage.after source i).offset + Text.byteLength w) ∧
      (∀ i, (⟨(Stage.after source i).offset⟩ : String.Pos.Raw).IsValid source) ∧
      (Stage.after source n).rest = [] ∧
      (Stage.after source n).lexemes.length + (Stage.after source n).faults.length = n ∧
      tokenize source = (Stage.after source n).outcome := by
  obtain ⟨n, hn, hgoes, hend, hcollected⟩ := Stage.exists_end (.start source)
  refine ⟨n, hn, fun i hi => ?_, fun i => ?_, hend, ?_, ?_⟩
  · obtain ⟨w, hadvances, hrest, hoffset⟩ := Stage.exists_advances (hgoes i hi)
    rw [Stage.after_succ]
    exact ⟨w, hadvances.ne_nil, hadvances, hrest, hoffset⟩
  · obtain ⟨before, hsource, hoffset⟩ := Stage.readsIn_after source i
    rw [hoffset]
    exact isValid_byteLength hsource
  · exact hcollected.trans (Nat.zero_add n)
  · exact Stage.tokenize_eq_outcome hend (Stage.results_iterate _ n)

/-- A stray character, a text literal that breaks off behind a backslash at the end of its line, and
one that breaks off at the end of the source. -/
def brokenSource : String := "é'a\\\n'b"

/-- The second iteration finds the bad escape and skips nothing, as the line ends behind the
backslash, and still it has used up three characters. -/
theorem tokenize_progress_nothingSkipped :
    ∃ n ≤ 7, 1 < n ∧
      (∃ w ≠ [], Stage.Advances w (Stage.after brokenSource 1) (Stage.after brokenSource 2) ∧
        (Stage.after brokenSource 1).rest = w ++ ['\n', '\'', 'b']) ∧
      (Stage.after brokenSource n).lexemes.length +
        (Stage.after brokenSource n).faults.length = n := by
  obtain ⟨n, hn, hadvances, _, hend, hcollected, _⟩ := tokenize_progress brokenSource
  have hlength : brokenSource.length = 7 := by decide +kernel
  have hzero : (Stage.after brokenSource 0).rest ≠ [] := by decide +kernel
  have hone : (Stage.after brokenSource 1).rest ≠ [] := by decide +kernel
  have hrest : (Stage.after brokenSource 2).rest = ['\n', '\'', 'b'] := by decide +kernel
  have hlt : 1 < n := by
    rcases n with _ | _ | n
    · exact (hzero hend).elim
    · exact (hone hend).elim
    · omega
  obtain ⟨w, hw, hadvances, hsplit, _⟩ := hadvances 1 hlt
  exact ⟨n, hlength ▸ hn, hlt, ⟨w, hw, hadvances, hrest ▸ hsplit⟩, hcollected⟩

end ArchScript
