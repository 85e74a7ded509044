import TypeExpr.Json.Value
import TypeExpr.Proofs.Json.Numeral

/-!
# Compact texts have no control characters

The control characters below U+0020 are the ones that a string must escape, and all that a
compact text has besides the characters of its strings are digits, letters and punctuation. So a
compact text is a single line, whatever its strings hold, and can be told from what stands around
it by any character below U+0020.
-/

namespace TypeExpr.Json

/-- A text without the control characters below U+0020. -/
def Printable (cs : List Char) : Prop :=
  ∀ c ∈ cs, 0x20 ≤ c.toNat

section Printable

variable {c : Char} {cs ds : List Char}

theorem printable_nil : Printable [] :=
  fun _ h => absurd h List.not_mem_nil

@[simp]
theorem printable_cons : Printable (c :: cs) ↔ 0x20 ≤ c.toNat ∧ Printable cs :=
  List.forall_mem_cons

theorem printable_append : Printable (cs ++ ds) ↔ Printable cs ∧ Printable ds :=
  List.forall_mem_append

theorem printable_flatMap {α : Type} {write : α → List Char} {values : List α}
    (h : ∀ value ∈ values, Printable (write value)) : Printable (values.flatMap write) := by
  intro c hc
  obtain ⟨value, hvalue, hc⟩ := List.mem_flatMap.mp hc
  exact h value hvalue c hc

theorem printable_of_isDigit (h : ∀ c ∈ cs, c.isDigit = true) : Printable cs := by
  intro c hc
  have hdigit := h c hc
  simp only [Char.isDigit, Bool.and_eq_true, decide_eq_true_eq] at hdigit
  have hle : (48 : UInt32).toNat ≤ c.val.toNat := UInt32.le_iff_toNat_le.mp hdigit.1
  exact Nat.le_trans (by decide) hle

end Printable

/-! ### Strings and numerals -/

/-- The digits of the number of a control character are letters and digits. -/
theorem printable_digitChar : ∀ n < 16, 0x20 ≤ n.digitChar.toNat := by
  decide

/-- **A character is escaped to printable ones.** -/
theorem printable_escape (c : Char) : Printable (Quoted.escape c) := by
  rw [Quoted.escape]
  split
  · rename_i hmark
    rcases hmark with rfl | rfl <;> simp [printable_nil]
  · split
    · rename_i hcontrol
      split
      · rename_i l hl
        unfold Quoted.letter? at hl
        split at hl <;> cases hl <;> simp [printable_nil]
      · have hhigh := printable_digitChar (c.toNat / 16) (by omega)
        have hlow := printable_digitChar (c.toNat % 16) (by omega)
        simp [printable_nil, hhigh, hlow]
    · rename_i hcontrol
      exact printable_cons.mpr ⟨Nat.le_of_not_lt hcontrol, printable_nil⟩

theorem printable_toDigits (n : Nat) : Printable (Nat.toDigits 10 n) :=
  printable_of_isDigit (Numeral.isDigit_toDigits n)

theorem printable_writeInt (e : Int) : Printable (Numeral.writeInt e) := by
  cases e with
  | ofNat n => exact printable_toDigits n
  | negSucc n => exact printable_cons.mpr ⟨by decide, printable_toDigits (n + 1)⟩

theorem printable_numeral (n : Numeral) : Printable n.write := by
  obtain ⟨negative, whole, fraction, exponent⟩ := n
  refine printable_append.mpr ⟨printable_append.mpr ⟨printable_append.mpr
    ⟨?_, printable_toDigits whole⟩, ?_⟩, ?_⟩
  · cases negative <;> simp [printable_nil]
  · cases fraction with
    | nil => exact printable_nil
    | cons d ds =>
      refine printable_cons.mpr ⟨by decide, List.forall_mem_map.mpr fun d _ => ?_⟩
      exact printable_digitChar d (Nat.lt_trans d.isLt (by decide))
  · cases exponent with
    | none => exact printable_nil
    | some e => exact printable_cons.mpr ⟨by decide, printable_writeInt e⟩

/-! ### Values -/

theorem printable_token (t : Token) : Printable t.write := by
  cases t with
  | numeral n => exact printable_numeral n
  | text s =>
    refine printable_cons.mpr ⟨by decide, printable_append.mpr ⟨?_, ?_⟩⟩
    · exact printable_flatMap fun c _ => printable_escape c
    · simp [printable_nil]
  | bool b => cases b <;> simp [Token.write, printable_nil]
  | _ => simp [Token.write, printable_nil]

/-- **A compact text has no control characters.** -/
theorem printable_compact (value : Json) : Printable value.compact.toList := by
  rw [compact, String.toList_ofList]
  exact printable_flatMap fun t _ => printable_token t

end TypeExpr.Json
