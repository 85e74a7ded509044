import TypeExpr.Proofs.Decode.Request
import TypeExpr.Proofs.Json.Document

/-!
# Decoding values

Decoders work on drafts, since they have to do something about a text that is no JSON. A text that
is JSON says a value, and it says only one (`Json.Says.unique`). Then decoding the text is decoding
the draft of the value, on either pass (`decodeDocument_eq_decode`).

This file says what the conditions on drafts come to if the drafts are those of values: nothing is
broken or cut short, and what is left are conditions on the tree. The members of an object are told
by what stands under each key (`Json.under`), a list that has one element where exactly one member
is asked for.
-/

namespace TypeExpr

open Json (Draft Document Says)

/-! ### Shapes -/

namespace Json

section Shapes

variable {value : Json}

theorem draft_eq_text_iff {s : String} : value.draft = .text s ↔ value = .text s := by
  cases value <;> simp [draft]

theorem draft_eq_array_iff {ds : List Draft} {closed : Bool} :
    value.draft = .array ds closed ↔
      closed = true ∧ ∃ items, value = .array items ∧ drafts items = ds := by
  cases value <;> simp [draft, and_comm, eq_comm]

theorem draft_eq_object_iff {ds : List (String × Draft)} {closed : Bool} :
    value.draft = .object ds closed ↔
      closed = true ∧ ∃ members, value = .object members ∧ memberDrafts members = ds := by
  cases value <;> simp [draft, and_comm, eq_comm]

/-- A value in the shape of a choice. -/
theorem draft_eq_choice_iff {key : String} {d : Draft} :
    value.draft = .object [(key, d)] true ↔
      ∃ content, value = .object [(key, content)] ∧ content.draft = d := by
  rw [draft_eq_object_iff]
  constructor
  · rintro ⟨-, members, rfl, hmembers⟩
    rcases members with _ | ⟨⟨k, content⟩, _ | ⟨member, members⟩⟩
    · cases hmembers
    · obtain ⟨rfl, hd⟩ : k = key ∧ content.draft = d := by simpa [memberDrafts] using hmembers
      exact ⟨content, rfl, hd⟩
    · simp [memberDrafts] at hmembers
  · rintro ⟨content, rfl, rfl⟩
    exact ⟨rfl, _, rfl, rfl⟩

theorem asUnit_draft_iff {pass : Pass} :
    value.draft.asUnit pass = .ok () ↔
      value = .null ∨ pass = .stored ∧ value = .object [] := by
  rw [asUnit_eq_ok_iff]
  rcases value with _ | _ | _ | _ | _ | ⟨_ | ⟨⟨key, value⟩, members⟩⟩ <;>
    simp [draft, memberDrafts]

end Shapes

/-! ### One value for a text -/

theorem map_inj_of_mem {α β : Type} {f : α → β} {xs ys : List α}
    (hf : ∀ x ∈ xs, ∀ y, f x = f y → x = y) (h : xs.map f = ys.map f) : xs = ys := by
  induction xs generalizing ys with
  | nil => exact (List.map_eq_nil_iff.mp h.symm).symm
  | cons x xs ih =>
    obtain ⟨y, ys, rfl, hy, hys⟩ := List.map_eq_cons_iff.mp h.symm
    obtain ⟨hx, hxs⟩ := List.forall_mem_cons.mp hf
    rw [hx y hy.symm, ih hxs hys.symm]

/-- The draft of a value has all that the value has. -/
theorem draft_injective {value other : Json} (h : value.draft = other.draft) : value = other := by
  induction value generalizing other with
  | null => cases other <;> first | rfl | cases h
  | bool b => cases other <;> cases h; rfl
  | numeral n => cases other <;> cases h; rfl
  | text s => exact (draft_eq_text_iff.mp h.symm).symm
  | array items ih =>
    obtain ⟨-, others, rfl, hothers⟩ := draft_eq_array_iff.mp h.symm
    rw [drafts_eq_map, drafts_eq_map] at hothers
    exact congrArg array (map_inj_of_mem (fun item hi other h => ih item hi h) hothers.symm)
  | object members ih =>
    obtain ⟨-, others, rfl, hothers⟩ := draft_eq_object_iff.mp h.symm
    rw [memberDrafts_eq_map, memberDrafts_eq_map] at hothers
    refine congrArg object (map_inj_of_mem (fun member hmember other heq => ?_) hothers.symm)
    obtain ⟨hkey, hvalue⟩ := Prod.mk.inj heq
    exact Prod.ext hkey (ih member hmember hvalue)

/-- **The tokens of a value tell which value it is**, however deep its brackets are nested. A reader
that may go down as far as this finds its draft. -/
theorem tokens_injective {value other : Json} (h : value.tokens = other.tokens) : value = other := by
  have hread := Draft.reads (le_max_left value.nesting other.nesting) []
  rw [h, Draft.reads (le_max_right _ _)] at hread
  exact draft_injective (Reading.mk.inj hread).1.symm

/-- **No text says two values** whose numerals are in range. -/
theorem Says.unique {source : String} {value other : Json} (h : Says source value)
    (h' : Says source other) (hvalue : value.inRange = true) (hother : other.inRange = true) :
    value = other :=
  tokens_injective ((h.lex hvalue).symm.trans (h'.lex hother))

/-- **Values whose numerals are in range have the same compact text only if they are the same.** -/
theorem compact_injective {value other : Json} (hvalue : value.inRange = true)
    (hother : other.inRange = true) (h : value.compact = other.compact) : value = other :=
  (says_compact value).unique (h ▸ says_compact other) hvalue hother

/-! ### Members by their keys -/

/-- The contents of the members under a key. -/
def under (key : String) (members : List (String × Json)) : List Json :=
  (members.filter fun member => member.1 = key).map Prod.snd

section Under

variable {key k : String} {value : Json} {members others : List (String × Json)}

@[simp]
theorem under_nil : under key [] = [] := rfl

@[simp]
theorem under_cons_self : under key ((key, value) :: members) = value :: under key members := by
  simp [under]

theorem under_cons_of_ne (h : k ≠ key) :
    under key ((k, value) :: members) = under key members := by
  simp [under, h]

theorem under_eq_nil_iff : under key members = [] ↔ ∀ member ∈ members, member.1 ≠ key := by
  simp [under]

theorem under_append : under key (members ++ others) = under key members ++ under key others := by
  simp [under]

theorem under_perm (h : members.Perm others) : (under key members).Perm (under key others) :=
  (h.filter _).map _

/-- What stands under a key around a member. -/
theorem under_around :
    under key (members ++ (k, value) :: others) =
      under key members ++ (if k = key then [value] else []) ++ under key others := by
  rw [under_append, List.append_assoc]
  split
  · rename_i hk
    rw [hk, under_cons_self]
    rfl
  · rename_i hk
    rw [under_cons_of_ne hk]
    rfl

/-- **Exactly one member stands under a key** of an object if it does in the draft of it. -/
theorem sole_memberDrafts_iff {d : Draft} :
    Sole key d (memberDrafts members) ↔
      ∃ content, under key members = [content] ∧ content.draft = d := by
  induction members with
  | nil => exact iff_of_false sole_nil (by simp)
  | cons member members ih =>
    obtain ⟨k, c⟩ := member
    rw [memberDrafts]
    by_cases hk : k = key
    · subst hk
      rw [sole_cons_self, under_cons_self, memberDrafts_eq_map, List.forall_mem_map,
        ← under_eq_nil_iff]
      constructor
      · rintro ⟨rfl, hnil⟩
        exact ⟨c, by rw [hnil], rfl⟩
      · rintro ⟨content, hunder, rfl⟩
        obtain ⟨rfl, hnil⟩ := List.cons.inj hunder
        exact ⟨rfl, hnil⟩
    · rw [sole_cons_of_ne hk, under_cons_of_ne hk, ih]

/-- Exactly one member stands under a key, and it is a string. -/
theorem sole_text_iff {s : String} :
    Sole key (.text s) (memberDrafts members) ↔ under key members = [.text s] := by
  simp only [sole_memberDrafts_iff, draft_eq_text_iff, exists_eq_right]

/-- Exactly one member stands under a key, and it is an array. -/
theorem sole_array_iff {ds : List Draft} :
    Sole key (.array ds true) (memberDrafts members) ↔
      ∃ items, under key members = [.array items] ∧ drafts items = ds := by
  simp only [sole_memberDrafts_iff, draft_eq_array_iff, true_and]
  constructor
  · rintro ⟨_, hunder, items, rfl, hitems⟩
    exact ⟨items, hunder, hitems⟩
  · rintro ⟨items, hunder, hitems⟩
    exact ⟨_, hunder, items, rfl, hitems⟩

end Under

end Json

/-! ### Texts -/

section Texts

variable {source : String} {value : Json} (hsource : Says source value)
  (hvalue : value.Admissible Json.nestingLimit)

include hsource hvalue

/-- What a text that says a value within the limits is to its decoder, on either pass. -/
theorem document_of_says (pass : Pass) : pass.document source = ⟨value.draft, true⟩ := by
  cases pass with
  | streamed =>
    have hskim := Document.skim_of_says hsource hvalue.inRange
    rwa [Json.clip_of_nesting_le hvalue.nesting_le] at hskim
  | stored => exact Document.read_of_says hsource hvalue.inRange hvalue.nesting_le

theorem decodeDocument_eq_decode {α : Type} (decode : Draft → Except ReadError α) (pass : Pass) :
    decodeDocument decode (pass.document source) = decode value.draft := by
  rw [decodeDocument, document_of_says hsource hvalue]
  cases decode value.draft <;> rfl

/-- **A text that says a value is decoded as the value is**, if the value is within the limits. -/
theorem decodeText_eq_decode {α : Type} {decode : Draft → Except ReadError α} :
    decodeText decode source = decode value.draft :=
  decodeDocument_eq_decode hsource hvalue decode .streamed

/-- It is no matter whether the text is stored before. -/
theorem decodeStored_eq_decode {α : Type} {decode : Draft → Except ReadError α} :
    decodeStored decode source = decode value.draft :=
  decodeDocument_eq_decode hsource hvalue decode .stored

end Texts

end TypeExpr
