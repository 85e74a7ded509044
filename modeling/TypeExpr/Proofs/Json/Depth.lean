import TypeExpr.Proofs.Json.Nesting

/-!
# Brackets in a row of tokens

The nesting of a value can be seen from its tokens alone: going along them, an opening bracket
takes a level and a closing one gives it back. A row of tokens *fits* into `n` levels if no
bracket in it opens when none is left. The tokens of a value fit if its nesting is at most `n`,
and have then given back all they took (`Json.fits_tokens`).

Unlike the nesting, this is a notion for a part of a text as well, and says of a place in it
whether a bracket that is too deep comes before.
-/

namespace TypeExpr.Json

namespace Token

/-- The levels left behind a token, if there is one left for it. -/
def levels : Token → Nat → Option Nat
  | openArray, 0 | openObject, 0 => none
  | openArray, n + 1 | openObject, n + 1 => some n
  | closeArray, n | closeObject, n => some (n + 1)
  | _, n => some n

/-- **No bracket of a row of tokens opens when none of `n` levels is left.** -/
def fits (n : Nat) : List Token → Bool
  | [] => true
  | t :: ts =>
    match t.levels n with
    | some m => fits m ts
    | none => false

/-- What fits, fits up to any place in it. -/
theorem fits_of_append {ts us : List Token} {n : Nat} (h : fits n (ts ++ us) = true) :
    fits n ts = true := by
  induction ts generalizing n with
  | nil => rfl
  | cons t ts ih =>
    rw [List.cons_append, fits] at h
    rw [fits]
    cases hlevels : t.levels n with
    | none => simp [hlevels] at h
    | some m =>
      rw [hlevels] at h
      exact ih h

end Token

open Token

/-- The statement of `fits_tokens` for one value. -/
def FitsByNesting (value : Json) : Prop :=
  ∀ n rest, fits n (value.tokens ++ rest) = true ↔ value.nesting ≤ n ∧ fits n rest = true

section Lists

variable {n : Nat} {rest : List Token}

theorem fits_itemTokens {items : List Json} (h : ∀ item ∈ items, FitsByNesting item) :
    fits n (itemTokens items ++ rest) = true ↔
      nestingOfItems items ≤ n ∧ fits (n + 1) rest = true := by
  induction items with
  | nil => simp [itemTokens, nestingOfItems, fits, levels]
  | cons item items ih =>
    have hitem := h item List.mem_cons_self n (itemTokens items ++ rest)
    have hitems := ih fun item hi => h item (List.mem_cons_of_mem _ hi)
    change fits n (item.tokens ++ itemTokens items ++ rest) = true ↔ _
    rw [List.append_assoc, hitem, hitems, nestingOfItems, Nat.max_le, and_assoc]

theorem fits_memberTokens {members : List (String × Json)}
    (h : ∀ member ∈ members, FitsByNesting member.2) :
    fits n (memberTokens members ++ rest) = true ↔
      nestingOfMembers members ≤ n ∧ fits (n + 1) rest = true := by
  induction members with
  | nil => simp [memberTokens, nestingOfMembers, fits, levels]
  | cons member members ih =>
    obtain ⟨key, value⟩ := member
    have hvalue := h (key, value) List.mem_cons_self n (memberTokens members ++ rest)
    have hmembers := ih fun member hi => h member (List.mem_cons_of_mem _ hi)
    change fits n (value.tokens ++ memberTokens members ++ rest) = true ↔ _
    rw [List.append_assoc, hvalue, hmembers, nestingOfMembers, Nat.max_le, and_assoc]

end Lists

/-- **The tokens of a value fit if its nesting does**, and leave as many levels as they found. -/
theorem fits_tokens (value : Json) : FitsByNesting value := by
  induction value with
  | null | bool _ | numeral _ | text _ =>
    intro n rest
    simp [tokens, nesting, fits, levels]
  | array items ih =>
    intro n rest
    cases n with
    | zero => cases items <;> simp [tokens, nesting, fits, levels]
    | succ n =>
      cases items with
      | nil => simp [tokens, nesting, nestingOfItems, fits, levels]
      | cons item items =>
        have hitem := ih item List.mem_cons_self n (itemTokens items ++ rest)
        have hitems : fits n (itemTokens items ++ rest) = true ↔ _ :=
          fits_itemTokens fun item hi => ih item (List.mem_cons_of_mem _ hi)
        -- the bracket takes one of the levels, and `itemTokens` gives it back
        change fits n (item.tokens ++ itemTokens items ++ rest) = true ↔ _
        rw [List.append_assoc, hitem, hitems, nesting, nestingOfItems, Nat.add_le_add_iff_right,
          Nat.max_le, and_assoc]
  | object members ih =>
    intro n rest
    cases n with
    | zero =>
      rcases members with _ | ⟨⟨key, value⟩, members⟩ <;> simp [tokens, nesting, fits, levels]
    | succ n =>
      rcases members with _ | ⟨⟨key, value⟩, members⟩
      · simp [tokens, nesting, nestingOfMembers, fits, levels]
      · have hvalue := ih (key, value) List.mem_cons_self n (memberTokens members ++ rest)
        have hmembers : fits n (memberTokens members ++ rest) = true ↔ _ :=
          fits_memberTokens fun member hi => ih member (List.mem_cons_of_mem _ hi)
        change fits n (value.tokens ++ memberTokens members ++ rest) = true ↔ _
        rw [List.append_assoc, hvalue, hmembers, nesting, nestingOfMembers,
          Nat.add_le_add_iff_right, Nat.max_le, and_assoc]

end TypeExpr.Json
