/-
  Where the faults of a source stand.

  A fault marks characters of the source, but one: an unexpected character is marked by one
  byte, however many it has (`FaultIn`). Each fault lies in the characters that its reading
  uses up, so a scan finds its faults one after the other (`Lexer.pairwise_faults`).
-/
import ArchScript.Proofs.Lexing.Greedy

namespace ArchScript

/-- A fault stands in the text `cs`, which begins at the offset `pos`: it marks characters, or
one byte from where an unexpected character begins. -/
inductive FaultIn (pos : Nat) (cs : List Char) : Spanned LexicalFault → Prop
  | marked {x : LexicalFault} {before w after : List Char} (hx : x ≠ .unexpectedCharacter)
    (hcs : cs = before ++ (w ++ after)) (hw : w ≠ []) :
    FaultIn pos cs ⟨x, .ofSize (pos + Text.byteLength before) (Text.byteLength w)⟩
  | unexpected {before after : List Char} {c : Char} (hcs : cs = before ++ c :: after) :
    FaultIn pos cs ⟨.unexpectedCharacter, .ofSize (pos + Text.byteLength before) 1⟩

namespace FaultIn

variable {pos : Nat} {cs : List Char} {f : Spanned LexicalFault}

/-- The span of a fault is not empty and lies in its text. -/
theorem within (h : FaultIn pos cs f) :
    pos ≤ f.span.start ∧ f.span.start < f.span.stop ∧ f.span.stop ≤ pos + Text.byteLength cs := by
  cases h with
  | @marked x before w after _ hcs hw =>
    have := Text.byteLength_pos hw
    simp only [Span.ofSize, hcs, Text.byteLength_append]
    omega
  | @unexpected before after c hcs =>
    have := Char.utf8Size_pos c
    simp only [Span.ofSize, hcs, Text.byteLength_append, Text.byteLength_cons]
    omega

theorem append {ds all : List Char} (h : FaultIn pos cs f) (hall : cs ++ ds = all) :
    FaultIn pos all f := by
  subst hall
  cases h with
  | @marked x before w after hx hcs hw =>
    have hds : cs ++ ds = before ++ (w ++ (after ++ ds)) := by simp [hcs]
    exact .marked hx hds hw
  | @unexpected before after c hcs =>
    have hds : cs ++ ds = before ++ c :: (after ++ ds) := by simp [hcs]
    exact .unexpected hds

theorem prepend {ds all : List Char} (h : FaultIn (pos + Text.byteLength ds) cs f)
    (hall : ds ++ cs = all) : FaultIn pos all f := by
  subst hall
  cases h with
  | @marked x before w after hx hcs hw =>
    have hds : ds ++ cs = (ds ++ before) ++ (w ++ after) := by simp [hcs]
    rw [Nat.add_assoc, ← Text.byteLength_append]
    exact .marked hx hds hw
  | @unexpected before after c hcs =>
    have hds : ds ++ cs = (ds ++ before) ++ c :: after := by simp [hcs]
    rw [Nat.add_assoc, ← Text.byteLength_append]
    exact .unexpected hds

end FaultIn

namespace Lexer

/-! ## One reading -/

/-- A bad escape ends with its backslash. -/
theorem exists_backslash_of_scanText {cs : List Char} (h : (scanText cs).ending = .badEscape) :
    ∃ front, (scanText cs).taken = front ++ ['\\'] := by
  fun_induction scanText cs with
  | case1 => cases h
  | case2 => cases h
  | case3 => exact ⟨[], rfl⟩
  | case4 e cs v hv ih =>
    obtain ⟨front, hfront⟩ := ih h
    exact ⟨'\\' :: e :: front, by simp [TextScan.push, hfront]⟩
  | case5 => exact ⟨[], rfl⟩
  | case6 => cases h
  | case7 c cs _ _ _ _ ih =>
    obtain ⟨front, hfront⟩ := ih h
    exact ⟨c :: front, by simp [TextScan.push, hfront]⟩

/-- The fault of a reading stands in what it uses up. -/
def Reading.Marks {cs : List Char} (r : Reading cs) (pos : Nat) : Prop :=
  ∀ x, r.found.value = .fault x → FaultIn pos r.taken ⟨x, r.found.span⟩

theorem ofBounds_eq_ofSize {start stop size : Nat} (h : start + size = stop) :
    Span.ofBounds start stop = .ofSize start size := by
  subst h
  simp [Span.ofBounds, Span.ofSize]

theorem readText_marks (pos : Nat) (cs : List Char) : (readText pos cs).Marks pos := by
  unfold readText
  dsimp only
  split
  · rintro x ⟨⟩
  · rintro x ⟨⟩
    -- the quote and all that was read of the text
    have hspan : Span.ofBounds pos (pos + 1 + Text.byteLength (scanText cs).taken) =
        .ofSize (pos + Text.byteLength []) (Text.byteLength ('\'' :: (scanText cs).taken)) :=
      ofBounds_eq_ofSize (Nat.add_assoc _ _ _).symm
    have hread : '\'' :: ((scanText cs).taken ++ (scanText cs).rest.take 1) =
        [] ++ ('\'' :: (scanText cs).taken ++ (scanText cs).rest.take 1) := rfl
    dsimp only
    rw [hspan]
    exact .marked nofun hread (List.cons_ne_nil _ _)
  · next hend =>
    rintro x ⟨⟩
    -- the backslash
    obtain ⟨front, hfront⟩ := exists_backslash_of_scanText hend
    have hsize : Text.byteLength (scanText cs).taken = Text.byteLength front + 1 := by
      rw [hfront, Text.byteLength_append]
      rfl
    have hspan : Span.ofBounds (pos + 1 + Text.byteLength (scanText cs).taken - 1)
        (pos + 1 + Text.byteLength (scanText cs).taken) =
        .ofSize (pos + Text.byteLength ('\'' :: front)) (Text.byteLength ['\\']) := by
      have hquote : Text.byteLength ('\'' :: front) = 1 + Text.byteLength front := rfl
      have hstart : pos + 1 + Text.byteLength (scanText cs).taken - 1 =
          pos + Text.byteLength ('\'' :: front) := by omega
      rw [hstart]
      refine ofBounds_eq_ofSize ?_
      rw [hsize, hquote, show Text.byteLength ['\\'] = 1 from rfl]
      omega
    have hread : '\'' :: ((scanText cs).taken ++ brokenText (scanText cs).rest) =
        ('\'' :: front) ++ (['\\'] ++ brokenText (scanText cs).rest) := by simp [hfront]
    dsimp only
    rw [hspan]
    exact .marked nofun hread (List.cons_ne_nil _ _)

theorem readSign_marks (pos : Nat) (c : Char) (cs : List Char) : (readSign pos c cs).Marks pos := by
  unfold readSign
  split
  · rintro x ⟨⟩
  · rintro x ⟨⟩
    have hread : [c] = [] ++ c :: [] := rfl
    exact .unexpected hread

theorem readFront_marks (pos : Nat) (c : Char) (cs : List Char) :
    (readFront pos c cs).Marks pos := by
  unfold readFront
  split
  · rintro x ⟨⟩
  · exact readText_marks pos _
  · split
    · rintro x ⟨⟩
    · split
      · rintro x ⟨⟩
      · split
        · rintro x ⟨⟩
        · exact readSign_marks pos _ _

/-! ## The whole source -/

/-- Every fault of a scan stands in what is scanned. -/
theorem faultIn_of_mem_faults (pos : Nat) (cs : List Char) :
    ∀ f ∈ faults (scan pos cs), FaultIn pos cs f := by
  fun_induction scan pos cs with
  | case1 => exact fun f hf => (List.not_mem_nil hf).elim
  | case2 pos c cs r ih =>
    have hrest : ∀ f ∈ faults (scan (pos + Text.byteLength r.taken) r.rest),
        FaultIn pos (c :: cs) f := fun f hf => (ih f hf).prepend r.split
    cases hfound : r.found.value with
    | lexeme l =>
      rw [faults_cons_lexeme hfound]
      exact hrest
    | fault x =>
      rw [faults_cons_fault hfound]
      have hmarks : r.Marks pos := readFront_marks pos c cs
      exact List.forall_mem_cons.2 ⟨(hmarks x hfound).append r.split, hrest⟩

/-- The faults of a scan come one after the other. -/
theorem pairwise_faults (pos : Nat) (cs : List Char) :
    (faults (scan pos cs)).Pairwise fun f g => f.span.stop ≤ g.span.start := by
  fun_induction scan pos cs with
  | case1 => exact .nil
  | case2 pos c cs r ih =>
    cases hfound : r.found.value with
    | lexeme l =>
      rw [faults_cons_lexeme hfound]
      exact ih
    | fault x =>
      rw [faults_cons_fault hfound]
      refine List.pairwise_cons.2 ⟨fun g hg => ?_, ih⟩
      -- the first fault ends where its reading does, at the latest, and the others begin there
      have hmarks : r.Marks pos := readFront_marks pos c cs
      have hfirst := (hmarks x hfound).within
      have hnext := (faultIn_of_mem_faults _ _ g hg).within
      exact hfirst.2.2.trans hnext.1

end Lexer

/-- A source has the faults of its scan, if there are any. -/
theorem tokenize_eq_error_iff {source : String} {fs : List (Spanned LexicalFault)} :
    tokenize source = .error fs ↔
      fs ≠ [] ∧ Lexer.faults (Lexer.scan 0 source.toList) = fs := by
  unfold tokenize
  dsimp only
  split
  · next h =>
    rw [h]
    refine ⟨nofun, fun ⟨hne, heq⟩ => absurd heq.symm hne⟩
  · next h =>
    constructor
    · rintro ⟨⟩
      exact ⟨h, rfl⟩
    · rintro ⟨_, rfl⟩
      rfl

end ArchScript
