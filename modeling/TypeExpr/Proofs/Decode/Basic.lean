import Mathlib.Data.List.Forall2
import TypeExpr.Decode.Basic

/-!
# What decoders accept

A decoder stops at the first fault, and which fault that is takes the whole course of the
decoding to say. When it accepts is easier: no step finds a fault. This file says for each of
the common steps when it accepts and with which value, as an equivalence, so that acceptance
can be told of a draft without following the decoder through it.

A member that a record asks for must be there exactly once (`Sole`). The decoder of the fields
finds that out on the way, with the values that it has found so far; the condition itself
speaks of the members only.
-/

namespace TypeExpr

open Json (Draft Document)

/-! ### Steps -/

section Steps

variable {ε α β : Type}

/-- A sequence of two steps succeeds if both do. -/
@[simp]
theorem bind_eq_ok_iff {x : Except ε α} {f : α → Except ε β} {b : β} :
    (x >>= f) = .ok b ↔ ∃ a, x = .ok a ∧ f a = .ok b := by
  cases x with
  | error e =>
    constructor
    · intro h
      cases h
    · rintro ⟨_, h, -⟩
      cases h
  | ok a => exact ⟨fun h => ⟨a, rfl, h⟩, fun ⟨_, ha, hf⟩ => Except.ok.inj ha ▸ hf⟩

@[simp]
theorem return_eq_ok_iff {a b : α} : (return a : Except ε α) = .ok b ↔ a = b :=
  ⟨Except.ok.inj, congrArg Except.ok⟩

@[simp]
theorem map_eq_ok_iff {x : Except ε α} {f : α → β} {b : β} :
    x.map f = .ok b ↔ ∃ a, x = .ok a ∧ f a = b := by
  cases x with
  | error e =>
    constructor
    · intro h
      cases h
    · rintro ⟨_, h, -⟩
      cases h
  | ok a =>
    exact ⟨fun h => ⟨a, rfl, Except.ok.inj h⟩,
      fun ⟨_, ha, hf⟩ => congrArg Except.ok ((congrArg f (Except.ok.inj ha)).trans hf)⟩

/-- A row of values is decoded if each of them is. -/
theorem mapM_eq_ok_iff {decode : α → Except ε β} {items : List α} {values : List β} :
    items.mapM decode = .ok values ↔
      List.Forall₂ (fun item value => decode item = .ok value) items values := by
  induction items generalizing values with
  | nil => rw [List.mapM_nil, return_eq_ok_iff, List.forall₂_nil_left_iff, eq_comm]
  | cons item items ih =>
    rw [List.mapM_cons]
    simp only [bind_eq_ok_iff, return_eq_ok_iff, ih, List.forall₂_cons_left_iff]
    constructor
    · rintro ⟨value, hvalue, rest, hrest, rfl⟩
      exact ⟨value, rest, hvalue, hrest, rfl⟩
    · rintro ⟨value, rest, hvalue, hrest, rfl⟩
      exact ⟨value, hvalue, rest, hrest, rfl⟩

/-- A relation between rows may be replaced where it relates something to one of the
values. -/
theorem forall₂_imp_of_mem {R S : α → β → Prop} {items : List α} {values : List β}
    (h : List.Forall₂ R items values)
    (himp : ∀ value ∈ values, ∀ item, R item value → S item value) :
    List.Forall₂ S items values := by
  induction h with
  | nil => exact .nil
  | @cons item value items values hvalue _ ih =>
    exact .cons (himp value List.mem_cons_self item hvalue)
      (ih fun value hmem => himp value (List.mem_cons_of_mem _ hmem))

/-- A row is related to another one if both can be split around one of their elements. -/
theorem forall₂_around_iff {R : α → β → Prop} {before after : List α} {item : α}
    {values : List β} :
    List.Forall₂ R (before ++ item :: after) values ↔
      ∃ us value vs, values = us ++ value :: vs ∧ List.Forall₂ R before us ∧ R item value ∧
        List.Forall₂ R after vs := by
  constructor
  · intro h
    induction before generalizing values with
    | nil =>
      obtain ⟨value, vs, hvalue, hvs, rfl⟩ := List.forall₂_cons_left_iff.mp h
      exact ⟨[], value, vs, rfl, .nil, hvalue, hvs⟩
    | cons first before ih =>
      obtain ⟨u, rest, hu, hrest, rfl⟩ := List.forall₂_cons_left_iff.mp h
      obtain ⟨us, value, vs, rfl, hus, hvalue, hvs⟩ := ih hrest
      exact ⟨u :: us, value, vs, rfl, .cons hu hus, hvalue, hvs⟩
  · rintro ⟨us, value, vs, rfl, hus, hvalue, hvs⟩
    exact List.rel_append hus (.cons hvalue hvs)

/-- What is decoded in the end was decoded from one of the items. -/
theorem exists_of_mem_forall₂ {R : α → β → Prop} {items : List α} {values : List β}
    (h : List.Forall₂ R items values) {value : β} (hvalue : value ∈ values) :
    ∃ item ∈ items, R item value := by
  induction h with
  | nil => exact absurd hvalue List.not_mem_nil
  | @cons item head items values hhead _ ih =>
    rcases List.mem_cons.mp hvalue with rfl | hvalue
    · exact ⟨item, List.mem_cons_self, hhead⟩
    · obtain ⟨item, hitem, hR⟩ := ih hvalue
      exact ⟨item, List.mem_cons_of_mem _ hitem, hR⟩

/-- A row is related to some row if each of its items is related to something. -/
theorem exists_forall₂_iff {R : α → β → Prop} {items : List α} :
    (∃ values, List.Forall₂ R items values) ↔ ∀ item ∈ items, ∃ value, R item value := by
  induction items with
  | nil => simp
  | cons item items ih =>
    rw [List.forall_mem_cons, ← ih]
    constructor
    · rintro ⟨_, hitem | ⟨hvalue, hvalues⟩⟩
      exact ⟨⟨_, hvalue⟩, _, hvalues⟩
    · rintro ⟨⟨value, hvalue⟩, values, hvalues⟩
      exact ⟨value :: values, .cons hvalue hvalues⟩

end Steps

section Plain

variable {α β : Type}

@[simp]
theorem finish_eq_ok_iff {more : List α} {closed : Bool} {u : Unit} :
    finish more closed = .ok u ↔ more = [] ∧ closed = true := by
  rw [finish]
  cases more <;> cases closed <;> simp

@[simp]
theorem asText_eq_ok_iff {d : Draft} {s : String} : d.asText = .ok s ↔ d = .text s := by
  unfold Json.Draft.asText
  split <;> simp_all

@[simp]
theorem asUnit_eq_ok_iff {pass : Pass} {d : Draft} {u : Unit} :
    d.asUnit pass = .ok u ↔ d = .null ∨ pass = .stored ∧ d = .object [] true := by
  unfold Json.Draft.asUnit
  split <;> simp_all

theorem asList_eq_ok_iff {decode : Draft → Except ReadError α} {d : Draft} {values : List α} :
    d.asList decode = .ok values ↔
      ∃ items, d = .array items true ∧
        List.Forall₂ (fun item value => decode item = .ok value) items values := by
  unfold Json.Draft.asList
  split
  · rename_i items closed
    simp only [bind_eq_ok_iff, return_eq_ok_iff, finish_eq_ok_iff, mapM_eq_ok_iff]
    constructor
    · rintro ⟨_, hvalues, -, ⟨-, rfl⟩, rfl⟩
      exact ⟨items, rfl, hvalues⟩
    · rintro ⟨_, h, hvalues⟩
      cases h
      exact ⟨values, hvalues, (), ⟨trivial, rfl⟩, rfl⟩
  · rename_i hne
    constructor
    · intro h
      cases h
    · rintro ⟨items, rfl, -⟩
      exact absurd rfl (hne items true)

@[simp]
theorem refuses_nil (pass : Pass) : pass.refuses [] = false := by
  simp [Pass.refuses]

/-- A choice is an object with one key, on either pass. -/
theorem asChoice_eq_ok_iff {pass : Pass} {decode : String → Draft → Except ReadError α}
    {d : Draft} {value : α} :
    d.asChoice pass decode = .ok value ↔
      ∃ key content, d = .object [(key, content)] true ∧ decode key content = .ok value := by
  unfold Json.Draft.asChoice
  split
  · rename_i key content more closed
    by_cases hrefuses : pass.refuses more = true
    · -- refused for a second key, before the first is looked at
      rw [if_pos hrefuses]
      constructor
      · intro h
        cases h
      · rintro ⟨k, c, h, -⟩
        cases h
        exact absurd hrefuses (by simp)
    · rw [if_neg hrefuses]
      simp only [bind_eq_ok_iff, return_eq_ok_iff, finish_eq_ok_iff]
      constructor
      · rintro ⟨_, hvalue, -, ⟨rfl, rfl⟩, rfl⟩
        exact ⟨key, content, rfl, hvalue⟩
      · rintro ⟨k, c, h, hvalue⟩
        cases h
        exact ⟨value, hvalue, (), ⟨rfl, rfl⟩, rfl⟩
  · constructor
    · intro h
      cases h
    · rintro ⟨k, c, h, -⟩
      cases h
  · rename_i hcons hnil
    constructor
    · intro h
      cases h
    · rintro ⟨k, c, rfl, -⟩
      exact absurd rfl (hcons k c [] true)

/-- A text is accepted if its draft is and nothing follows it. -/
theorem decodeDocument_eq_ok_iff {decode : Draft → Except ReadError α} {document : Document}
    {value : α} :
    decodeDocument decode document = .ok value ↔
      decode document.draft = .ok value ∧ document.ended = true := by
  rw [decodeDocument]
  cases document.ended <;> simp

/-! ### Whole drafts -/

theorem areWhole_iff {items : List Draft} :
    Draft.areWhole items = true ↔ ∀ item ∈ items, item.isWhole = true := by
  induction items with
  | nil => simp [Draft.areWhole]
  | cons item items ih => simp [Draft.areWhole, ih]

theorem membersWhole_iff {members : List (String × Draft)} :
    Draft.membersWhole members = true ↔ ∀ member ∈ members, member.2.isWhole = true := by
  induction members with
  | nil => simp [Draft.membersWhole]
  | cons member members ih => simp [Draft.membersWhole, ih]

theorem isWhole_array {items : List Draft} (h : ∀ item ∈ items, item.isWhole = true) :
    (Draft.array items true).isWhole = true := by
  rw [Draft.isWhole, areWhole_iff.mpr h, Bool.and_self]

theorem isWhole_object {members : List (String × Draft)}
    (h : ∀ member ∈ members, member.2.isWhole = true) :
    (Draft.object members true).isWhole = true := by
  rw [Draft.isWhole, membersWhole_iff.mpr h, Bool.and_self]

/-- What was read of a row of items is whole if each item is. -/
theorem isWhole_array_of_forall₂ {R : Draft → α → Prop} {items : List Draft} {values : List α}
    (h : List.Forall₂ R items values)
    (hwhole : ∀ value ∈ values, ∀ item, R item value → item.isWhole = true) :
    (Draft.array items true).isWhole = true := by
  refine isWhole_array ?_
  induction h with
  | nil => exact fun _ hmem => absurd hmem List.not_mem_nil
  | @cons item value items values hvalue _ ih =>
    refine List.forall_mem_cons.mpr ⟨hwhole value List.mem_cons_self item hvalue, ?_⟩
    exact ih fun value hmem => hwhole value (List.mem_cons_of_mem _ hmem)

/-! ### Fields -/

/-- Exactly one member stands under a key, and this is its content. -/
def Sole (key : String) (content : Draft) (members : List (String × Draft)) : Prop :=
  members.filter (fun member => member.1 = key) = [(key, content)]

theorem sole_nil {key : String} {content : Draft} : ¬Sole key content [] := by
  simp [Sole]

theorem sole_cons_of_ne {key k : String} {content c : Draft} {members : List (String × Draft)}
    (h : k ≠ key) : Sole key content ((k, c) :: members) ↔ Sole key content members := by
  simp [Sole, h]

theorem sole_cons_self {key : String} {content c : Draft} {members : List (String × Draft)} :
    Sole key content ((key, c) :: members) ↔
      c = content ∧ ∀ member ∈ members, member.1 ≠ key := by
  simp [Sole]

theorem Sole.mem {key : String} {content : Draft} {members : List (String × Draft)}
    (h : Sole key content members) : (key, content) ∈ members :=
  List.mem_of_mem_filter (h ▸ List.mem_singleton_self _)

/-- A member under the key is the only one. -/
theorem Sole.eq_of_mem {key : String} {content c : Draft} {members : List (String × Draft)}
    (h : Sole key content members) (hc : (key, c) ∈ members) : c = content := by
  have hfilter : (key, c) ∈ members.filter (fun member => member.1 = key) :=
    List.mem_filter.mpr ⟨hc, by simp⟩
  rw [h, List.mem_singleton] at hfilter
  exact (Prod.mk.inj hfilter).2

/-- What the members before these have left to do for a field: nothing, if the field was among
them, and else to find it. -/
def Awaits (key : String) (decode : Draft → Except ReadError α) (members : List (String × Draft))
    (value : α) : Option α → Prop
  | none => ∃ content, Sole key content members ∧ decode content = .ok value
  | some found => found = value ∧ ∀ member ∈ members, member.1 ≠ key

section Awaits

variable {key k : String} {decode : Draft → Except ReadError α} {c : Draft}
  {members : List (String × Draft)} {value : α} {found : Option α}

theorem awaits_nil : Awaits key decode [] value found ↔ found = some value := by
  cases found <;> simp [Awaits, sole_nil]

theorem awaits_cons_of_ne (h : k ≠ key) :
    Awaits key decode ((k, c) :: members) value found ↔ Awaits key decode members value found := by
  cases found <;> simp [Awaits, sole_cons_of_ne, h]

theorem awaits_cons_self :
    Awaits key decode ((key, c) :: members) value found ↔
      found = none ∧ ∃ first, decode c = .ok first ∧
        Awaits key decode members value (some first) := by
  cases found with
  | some first => simp [Awaits]
  | none =>
    simp only [Awaits, sole_cons_self]
    constructor
    · rintro ⟨_, ⟨rfl, hne⟩, hvalue⟩
      exact ⟨trivial, value, hvalue, rfl, hne⟩
    · rintro ⟨-, _, hvalue, rfl, hne⟩
      exact ⟨c, ⟨rfl, hne⟩, hvalue⟩

end Awaits

theorem decodeField_eq_ok_iff {key : String} {decode : Draft → Except ReadError α}
    {members : List (String × Draft)} {found : Option α} {value : α} :
    decodeField key decode found members = .ok value ↔ Awaits key decode members value found := by
  induction members generalizing found with
  | nil => cases found <;> simp [decodeField, awaits_nil]
  | cons member members ih =>
    obtain ⟨k, c⟩ := member
    rw [decodeField]
    by_cases hk : k = key
    · subst hk
      rw [if_pos rfl, awaits_cons_self]
      cases found <;> simp [ih]
    · rw [if_neg hk, ih, awaits_cons_of_ne hk]

theorem decodeFields_eq_ok_iff {key₁ key₂ : String} {decode₁ : Draft → Except ReadError α}
    {decode₂ : Draft → Except ReadError β} (hkeys : key₁ ≠ key₂)
    {members : List (String × Draft)} {found₁ : Option α} {found₂ : Option β} {value₁ : α}
    {value₂ : β} :
    decodeFields key₁ decode₁ key₂ decode₂ found₁ found₂ members = .ok (value₁, value₂) ↔
      Awaits key₁ decode₁ members value₁ found₁ ∧ Awaits key₂ decode₂ members value₂ found₂ := by
  induction members generalizing found₁ found₂ with
  | nil => cases found₁ <;> cases found₂ <;> simp [decodeFields, awaits_nil]
  | cons member members ih =>
    obtain ⟨k, c⟩ := member
    rw [decodeFields]
    by_cases hk₁ : k = key₁
    · subst hk₁
      rw [if_pos rfl, awaits_cons_self, awaits_cons_of_ne hkeys]
      rcases found₁ with _ | first
      · simp only [Option.isSome_none, Bool.false_eq_true, if_false, bind_eq_ok_iff, ih, true_and]
        constructor
        · rintro ⟨first, hfirst, h₁, h₂⟩
          exact ⟨⟨first, hfirst, h₁⟩, h₂⟩
        · rintro ⟨⟨first, hfirst, h₁⟩, h₂⟩
          exact ⟨first, hfirst, h₁, h₂⟩
      · simp
    · rw [if_neg hk₁, awaits_cons_of_ne hk₁]
      by_cases hk₂ : k = key₂
      · subst hk₂
        rw [if_pos rfl, awaits_cons_self]
        rcases found₂ with _ | first
        · simp only [Option.isSome_none, Bool.false_eq_true, if_false, bind_eq_ok_iff, ih,
            true_and]
          constructor
          · rintro ⟨first, hfirst, h₁, h₂⟩
            exact ⟨h₁, first, hfirst, h₂⟩
          · rintro ⟨h₁, first, hfirst, h₂⟩
            exact ⟨first, hfirst, h₁, h₂⟩
        · simp
      · rw [if_neg hk₂, ih, awaits_cons_of_ne hk₂]

namespace Fields

/-- The fields of a record are this one, and whatever the record does not know. -/
def Has (key : String) (content : Draft) : Fields → Prop
  | keyed members => Sole key content members
  | ordered items => items = [content]

/-- The fields of a record are these two, and whatever the record does not know. -/
def HasBoth (key₁ : String) (content₁ : Draft) (key₂ : String) (content₂ : Draft) :
    Fields → Prop
  | keyed members => Sole key₁ content₁ members ∧ Sole key₂ content₂ members
  | ordered items => items = [content₁, content₂]

theorem one_eq_ok_iff {key : String} {decode : Draft → Except ReadError α} {fields : Fields}
    {value : α} :
    fields.one key decode = .ok value ↔
      ∃ content, fields.Has key content ∧ decode content = .ok value := by
  cases fields with
  | keyed members => exact decodeField_eq_ok_iff
  | ordered items =>
    rcases items with _ | ⟨item, more⟩
    · simp [one, Has]
    · simp only [one, Has, bind_eq_ok_iff, return_eq_ok_iff, finish_eq_ok_iff, List.cons.injEq]
      constructor
      · rintro ⟨_, hvalue, -, ⟨rfl, -⟩, rfl⟩
        exact ⟨item, ⟨rfl, rfl⟩, hvalue⟩
      · rintro ⟨_, ⟨rfl, rfl⟩, hvalue⟩
        exact ⟨value, hvalue, (), ⟨rfl, trivial⟩, rfl⟩

theorem two_eq_ok_iff {key₁ key₂ : String} {decode₁ : Draft → Except ReadError α}
    {decode₂ : Draft → Except ReadError β} (hkeys : key₁ ≠ key₂) {fields : Fields} {value₁ : α}
    {value₂ : β} :
    fields.two key₁ decode₁ key₂ decode₂ = .ok (value₁, value₂) ↔
      ∃ content₁ content₂, fields.HasBoth key₁ content₁ key₂ content₂ ∧
        decode₁ content₁ = .ok value₁ ∧ decode₂ content₂ = .ok value₂ := by
  cases fields with
  | keyed members =>
    rw [two, decodeFields_eq_ok_iff hkeys]
    constructor
    · rintro ⟨⟨content₁, h₁, hvalue₁⟩, content₂, h₂, hvalue₂⟩
      exact ⟨content₁, content₂, ⟨h₁, h₂⟩, hvalue₁, hvalue₂⟩
    · rintro ⟨content₁, content₂, ⟨h₁, h₂⟩, hvalue₁, hvalue₂⟩
      exact ⟨⟨content₁, h₁, hvalue₁⟩, content₂, h₂, hvalue₂⟩
  | ordered items =>
    rcases items with _ | ⟨item₁, _ | ⟨item₂, more⟩⟩
    · simp [two, HasBoth]
    · simp [two, HasBoth]
    · simp only [two, HasBoth, bind_eq_ok_iff, return_eq_ok_iff, finish_eq_ok_iff,
        List.cons.injEq, Prod.mk.injEq]
      constructor
      · rintro ⟨_, hvalue₁, _, hvalue₂, -, ⟨rfl, -⟩, rfl, rfl⟩
        exact ⟨item₁, item₂, ⟨rfl, rfl, rfl⟩, hvalue₁, hvalue₂⟩
      · rintro ⟨_, _, ⟨rfl, rfl, rfl⟩, hvalue₁, hvalue₂⟩
        exact ⟨value₁, hvalue₁, value₂, hvalue₂, (), ⟨rfl, trivial⟩, rfl, rfl⟩

end Fields

end Plain

end TypeExpr
