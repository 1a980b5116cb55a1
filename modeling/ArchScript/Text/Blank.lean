/-
  Blank characters: the characters that may stand between two words of a source.

  The class is the Unicode property White_Space, written out as its ranges. It is
  larger than core's `Char.isWhitespace`, which knows six of them
  (`isBlank_of_isWhitespace`).
-/

namespace ArchScript.Text

/-- The ranges of code points that have the property White_Space, in order. -/
def blankRanges : List (Nat × Nat) :=
  [(0x9, 0xD), (0x20, 0x20), (0x85, 0x85), (0xA0, 0xA0), (0x1680, 0x1680), (0x2000, 0x200A),
    (0x2028, 0x2029), (0x202F, 0x202F), (0x205F, 0x205F), (0x3000, 0x3000)]

/-- A character is blank when its code point lies in one of `blankRanges`. -/
def isBlank (c : Char) : Bool :=
  blankRanges.any fun r => r.1 ≤ c.toNat && c.toNat ≤ r.2

theorem isBlank_iff {c : Char} :
    isBlank c = true ↔ ∃ r ∈ blankRanges, r.1 ≤ c.toNat ∧ c.toNat ≤ r.2 := by
  simp [isBlank]

/-- The white space of core is blank. -/
theorem isBlank_of_isWhitespace {c : Char} (h : c.isWhitespace = true) : isBlank c = true := by
  simp only [Char.isWhitespace, Bool.or_eq_true, decide_eq_true_eq] at h
  rcases h with ((rfl | rfl) | rfl) | rfl <;> decide

/-- The class has 25 characters. -/
example : (blankRanges.map fun r => r.2 + 1 - r.1).sum = 25 := by decide

end ArchScript.Text
