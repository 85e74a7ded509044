import TypeExpr.Proofs.Json.Written

/-!
# Nesting

How deep the brackets of a value are nested decides how much of it is found. The two readers with
`n` levels left do the same to a value of at most `n` levels: they read its tokens to the end, and
find its draft. Of a deeper value the strict reader does not come to the end. The skimmer does, and
finds all of it but what is beyond the `n`-th level, where it finds something broken in the place of
each container (`Json.clip`). That it comes to the end rests on the fact that the tokens of any value
can be passed over (`Token.skip_tokens`).

In the other direction, whatever the text, a reader with `n` levels left never finds more than `n`
levels.
-/

namespace TypeExpr.Json

/-! ### The nesting of a value -/

mutual

/-- How many levels of brackets a value has. -/
def nesting : Json → Nat
  | array items => nestingOfItems items + 1
  | object members => nestingOfMembers members + 1
  | _ => 0

/-- How many levels of brackets the deepest of some items has. -/
def nestingOfItems : List Json → Nat
  | [] => 0
  | item :: items => max item.nesting (nestingOfItems items)

/-- How many levels of brackets the deepest of some members has. -/
def nestingOfMembers : List (String × Json) → Nat
  | [] => 0
  | (_, value) :: members => max value.nesting (nestingOfMembers members)

end

/-! ### Drafts of items and members -/

theorem drafts_eq_map (items : List Json) : drafts items = items.map draft := by
  induction items with
  | nil => rfl
  | cons item items ih => rw [drafts, ih, List.map_cons]

theorem memberDrafts_eq_map (members : List (String × Json)) :
    memberDrafts members = members.map fun member => (member.1, member.2.draft) := by
  induction members with
  | nil => rfl
  | cons member members ih => rw [memberDrafts, ih, List.map_cons]

mutual

/-- The draft of a value in which the containers beyond `n` levels are broken. -/
def clip (n : Nat) : Json → Draft
  | null => .null
  | bool b => .bool b
  | numeral m => .numeral m
  | text s => .text s
  | array items =>
    match n with
    | 0 => .broken
    | n + 1 => .array (clipItems n items) true
  | object members =>
    match n with
    | 0 => .broken
    | n + 1 => .object (clipMembers n members) true

/-- The drafts of the items of an array, clipped. -/
def clipItems (n : Nat) : List Json → List Draft
  | [] => []
  | item :: items => item.clip n :: clipItems n items

/-- The drafts of the members of an object, clipped. -/
def clipMembers (n : Nat) : List (String × Json) → List (String × Draft)
  | [] => []
  | (key, value) :: members => (key, value.clip n) :: clipMembers n members

end

section Lists

variable {n : Nat}

theorem clipItems_eq_map (items : List Json) : clipItems n items = items.map (clip n) := by
  induction items with
  | nil => rfl
  | cons item items ih => rw [clipItems, ih, List.map_cons]

theorem clipMembers_eq_map (members : List (String × Json)) :
    clipMembers n members = members.map fun member => (member.1, member.2.clip n) := by
  induction members with
  | nil => rfl
  | cons member members ih => rw [clipMembers, ih, List.map_cons]

theorem nestingOfItems_le_iff {items : List Json} :
    nestingOfItems items ≤ n ↔ ∀ item ∈ items, item.nesting ≤ n := by
  induction items with
  | nil => simp [nestingOfItems]
  | cons item items ih => rw [nestingOfItems, Nat.max_le, ih, List.forall_mem_cons]

theorem nestingOfMembers_le_iff {members : List (String × Json)} :
    nestingOfMembers members ≤ n ↔ ∀ member ∈ members, member.2.nesting ≤ n := by
  induction members with
  | nil => simp [nestingOfMembers]
  | cons member members ih =>
    obtain ⟨key, value⟩ := member
    rw [nestingOfMembers, Nat.max_le, ih, List.forall_mem_cons]

end Lists

/-- **Nothing is broken in a value that is not too deep.** -/
theorem clip_of_nesting_le {n : Nat} {value : Json} (h : value.nesting ≤ n) :
    value.clip n = value.draft := by
  induction value generalizing n with
  | null | bool _ | numeral _ | text _ => rfl
  | array items ih =>
    obtain ⟨n, rfl⟩ := Nat.exists_eq_succ_of_ne_zero (Nat.ne_zero_of_lt h)
    have hitems := nestingOfItems_le_iff.mp (Nat.le_of_succ_le_succ h)
    rw [clip, draft, clipItems_eq_map, drafts_eq_map,
      List.map_congr_left fun item hi => ih item hi (hitems item hi)]
  | object members ih =>
    obtain ⟨n, rfl⟩ := Nat.exists_eq_succ_of_ne_zero (Nat.ne_zero_of_lt h)
    have hmembers := nestingOfMembers_le_iff.mp (Nat.le_of_succ_le_succ h)
    rw [clip, draft, clipMembers_eq_map, memberDrafts_eq_map,
      List.map_congr_left fun member hi => by rw [ih member hi (hmembers member hi)]]

/-- No value begins with the bracket that closes an array. -/
theorem tokens_append_ne (value : Json) (rest us : List Token) :
    value.tokens ++ rest ≠ .closeArray :: us := by
  cases value with
  | array items => cases items <;> simp [tokens]
  | object members => rcases members with _ | ⟨⟨key, value⟩, members⟩ <;> simp [tokens]
  | _ => simp [tokens]

/-! ### Passing over the tokens of a value -/

namespace Token

/-- The tokens of this value can be passed over inside of any brackets. -/
def Skips (value : Json) : Prop :=
  ∀ outer rest, skipValue outer (value.tokens ++ rest) = skipBehind outer rest

theorem skipBehind_itemTokens {items : List Json} (h : ∀ item ∈ items, Skips item)
    (outer : List Bracket) (rest : List Token) :
    skipBehind (.array :: outer) (itemTokens items ++ rest) = skipBehind outer rest := by
  induction items with
  | nil => rfl
  | cons item items ih =>
    obtain ⟨hitem, hitems⟩ := List.forall_mem_cons.mp h
    change skipValue (.array :: outer) (item.tokens ++ itemTokens items ++ rest) = _
    rw [List.append_assoc, hitem, ih hitems]

theorem skipBehind_memberTokens {members : List (String × Json)}
    (h : ∀ member ∈ members, Skips member.2) (outer : List Bracket) (rest : List Token) :
    skipBehind (.object :: outer) (memberTokens members ++ rest) = skipBehind outer rest := by
  induction members with
  | nil => rfl
  | cons member members ih =>
    obtain ⟨hvalue, hmembers⟩ := List.forall_mem_cons.mp h
    change skipValue (.object :: outer) (member.2.tokens ++ memberTokens members ++ rest) = _
    rw [List.append_assoc, hvalue, ih hmembers]

theorem skips (value : Json) : Skips value := by
  induction value with
  | null | bool _ | numeral _ | text _ => exact fun _ _ => rfl
  | array items ih =>
    intro outer rest
    cases items with
    | nil => rfl
    | cons item items =>
      obtain ⟨hitem, hitems⟩ := List.forall_mem_cons.mp ih
      rw [tokens, List.cons_append, List.append_assoc, skipValue, hitem,
        skipBehind_itemTokens hitems]
      exact tokens_append_ne item _
  | object members ih =>
    intro outer rest
    rcases members with _ | ⟨⟨key, value⟩, members⟩
    · rfl
    · obtain ⟨hvalue, hmembers⟩ := List.forall_mem_cons.mp ih
      change skipValue (.object :: outer) (value.tokens ++ memberTokens members ++ rest) = _
      rw [List.append_assoc, hvalue, skipBehind_memberTokens hmembers]

/-- **The tokens of any value can be passed over.** -/
theorem skip_tokens (value : Json) (rest : List Token) :
    skip (value.tokens ++ rest) = some rest := by
  rw [skip, skips, skipBehind]

end Token

/-! ### Reading the tokens of a value -/

namespace Draft

section Containers

variable {value : Reader} {f : Json → Draft}

/-- The tokens of this value are read to their end, as this draft. -/
def Reader.Reads (value : Reader) (v : Json) (d : Draft) : Prop :=
  ∀ rest, value.read (v.tokens ++ rest) = ⟨d, some rest⟩

theorem items_tokens (items : List Json) : ∀ item : Json,
    (∀ v ∈ item :: items, value.Reads v (f v)) → ∀ rest,
      Draft.items value (item.tokens ++ (itemTokens items ++ rest)) =
        ⟨(item :: items).map f, some rest⟩ := by
  induction items with
  | nil =>
    intro item h rest
    exact items_of_close (h item List.mem_cons_self (.closeArray :: rest))
  | cons next items ih =>
    intro item h rest
    obtain ⟨hitem, hitems⟩ := List.forall_mem_cons.mp h
    have hread := hitem (.comma :: (next.tokens ++ (itemTokens items ++ rest)))
    rw [itemTokens, List.cons_append, List.append_assoc, items_of_comma hread,
      ih next hitems rest]
    rfl

theorem members_tokens (members : List (String × Json)) : ∀ (key : String) (v : Json),
    (∀ member ∈ (key, v) :: members, value.Reads member.2 (f member.2)) → ∀ rest,
      Draft.members value (.text key :: .colon :: (v.tokens ++ (memberTokens members ++ rest))) =
        ⟨((key, v) :: members).map fun member => (member.1, f member.2), some rest⟩ := by
  induction members with
  | nil =>
    intro key v h rest
    exact members_of_close (h (key, v) List.mem_cons_self (.closeObject :: rest))
  | cons next members ih =>
    intro key v h rest
    obtain ⟨hvalue, hmembers⟩ := List.forall_mem_cons.mp h
    have hread := hvalue (.comma :: .text next.1 :: .colon ::
      (next.2.tokens ++ (memberTokens members ++ rest)))
    rw [memberTokens, List.cons_append, List.cons_append, List.cons_append, List.append_assoc,
      members_of_comma hread, ih next.1 next.2 hmembers rest]
    rfl

/-- An array is read from its opening bracket on, item by item, if there is one. -/
theorem nested_openArray {ts : List Token} (h : ∀ us, ts ≠ .closeArray :: us) :
    nested value (.openArray :: ts) =
      ⟨.array (Draft.items value ts).found (Draft.items value ts).rest.isSome,
        (Draft.items value ts).rest⟩ := by
  rw [nested]
  exact h

/-- An object is read from its opening bracket on, member by member, if there is one. -/
theorem nested_openObject {ts : List Token} (h : ∀ us, ts ≠ .closeObject :: us) :
    nested value (.openObject :: ts) =
      ⟨.object (Draft.members value ts).found (Draft.members value ts).rest.isSome,
        (Draft.members value ts).rest⟩ := by
  rw [nested]
  exact h

/-- An array is read if its items are. -/
theorem nested_array {items : List Json} (h : ∀ v ∈ items, value.Reads v (f v))
    (rest : List Token) :
    nested value ((Json.array items).tokens ++ rest) =
      ⟨.array (items.map f) true, some rest⟩ := by
  cases items with
  | nil => rfl
  | cons item items =>
    -- what follows the opening bracket is not the closing one, but an item
    rw [tokens, List.cons_append, List.append_assoc,
      nested_openArray (tokens_append_ne item _), items_tokens items item h]
    rfl

/-- An object is read if its members are. -/
theorem nested_object {members : List (String × Json)}
    (h : ∀ member ∈ members, value.Reads member.2 (f member.2)) (rest : List Token) :
    nested value ((Json.object members).tokens ++ rest) =
      ⟨.object (members.map fun member => (member.1, f member.2)) true, some rest⟩ := by
  rcases members with _ | ⟨⟨key, v⟩, members⟩
  · rfl
  · rw [tokens, List.cons_append, List.cons_append, List.cons_append, List.append_assoc,
      nested_openObject (by simp), members_tokens members key v h]
    rfl

end Containers

variable {n : Nat}

theorem read_openArray {ts : List Token} (h : ∀ us, ts ≠ .closeArray :: us) :
    (reader (n + 1)).read (.openArray :: ts) =
      ⟨.array (items (reader n) ts).found (items (reader n) ts).rest.isSome,
        (items (reader n) ts).rest⟩ :=
  nested_openArray h

theorem read_openObject {ts : List Token} (h : ∀ us, ts ≠ .closeObject :: us) :
    (reader (n + 1)).read (.openObject :: ts) =
      ⟨.object (members (reader n) ts).found (members (reader n) ts).rest.isSome,
        (members (reader n) ts).rest⟩ :=
  nested_openObject h

/-- **The strict reader reads every value that is not too deep.** -/
theorem reads {value : Json} (h : value.nesting ≤ n) : (reader n).Reads value value.draft := by
  induction value generalizing n with
  | null | bool _ | numeral _ | text _ =>
    intro rest
    cases n <;> rfl
  | array items ih =>
    intro rest
    obtain ⟨n, rfl⟩ := Nat.exists_eq_succ_of_ne_zero (Nat.ne_zero_of_lt h)
    have hitems := nestingOfItems_le_iff.mp (Nat.le_of_succ_le_succ h)
    rw [draft, drafts_eq_map]
    exact nested_array (fun item hi => ih item hi (hitems item hi)) rest
  | object members ih =>
    intro rest
    obtain ⟨n, rfl⟩ := Nat.exists_eq_succ_of_ne_zero (Nat.ne_zero_of_lt h)
    have hmembers := nestingOfMembers_le_iff.mp (Nat.le_of_succ_le_succ h)
    rw [draft, memberDrafts_eq_map]
    exact nested_object (fun member hi => ih member hi (hmembers member hi)) rest

theorem orSkip_of_eq_some {read : List Token → Reading Draft} {ts rest : List Token} {d : Draft}
    (h : read ts = ⟨d, some rest⟩) : orSkip read ts = ⟨d, some rest⟩ := by
  rw [orSkip, h]
  rfl

/-- **The skimmer reads every value**, and what is too deep in it is broken. -/
theorem skims (value : Json) : ∀ n, (skimmer n).Reads value (value.clip n) := by
  induction value with
  | null | bool _ | numeral _ | text _ =>
    intro n rest
    cases n <;> rfl
  | array items ih =>
    intro n rest
    cases n with
    | zero =>
      have hskip := Token.skip_tokens (.array items) rest
      cases items <;> exact congrArg (Reading.mk broken) hskip
    | succ n =>
      rw [clip, clipItems_eq_map]
      exact orSkip_of_eq_some (nested_array (fun item hi => ih item hi n) rest)
  | object members ih =>
    intro n rest
    cases n with
    | zero =>
      have hskip := Token.skip_tokens (.object members) rest
      rcases members with _ | ⟨⟨key, value⟩, members⟩ <;>
        exact congrArg (Reading.mk broken) hskip
    | succ n =>
      rw [clip, clipMembers_eq_map]
      exact orSkip_of_eq_some (nested_object (fun member hi => ih member hi n) rest)

end Draft

/-! ### Documents -/

/-- What a way of reading values makes of a text that says a value it can read. -/
theorem Document.of_says {reader : Draft.Reader} {source : String} {value : Json} {d : Draft}
    (hsource : Says source value) (hvalue : value.inRange = true) (h : reader.Reads value d) :
    Document.of reader source = ⟨d, true⟩ := by
  have hread := h []
  rw [List.append_nil] at hread
  rw [Document.of, hsource.lex hvalue, hread]
  rfl

/-- **Reading a text that says a value** within the limits. -/
theorem Document.read_of_says {source : String} {value : Json} (hsource : Says source value)
    (hvalue : value.inRange = true) (h : value.nesting ≤ nestingLimit) :
    Document.read source = ⟨value.draft, true⟩ :=
  of_says hsource hvalue (Draft.reads h)

/-- **Skimming a text that says a value**, whose numerals are in range: what is too deep in it is
broken. -/
theorem Document.skim_of_says {source : String} {value : Json} (hsource : Says source value)
    (hvalue : value.inRange = true) :
    Document.skim source = ⟨value.clip nestingLimit, true⟩ :=
  of_says hsource hvalue (Draft.skims value nestingLimit)

/-! ### The nesting of a draft -/

namespace Draft

mutual

/-- How many levels of brackets a draft has. -/
def nesting : Draft → Nat
  | array items _ => nestingOfItems items + 1
  | object members _ => nestingOfMembers members + 1
  | _ => 0

/-- How many levels of brackets the deepest of some items has. -/
def nestingOfItems : List Draft → Nat
  | [] => 0
  | item :: items => max item.nesting (nestingOfItems items)

/-- How many levels of brackets the deepest of some members has. -/
def nestingOfMembers : List (String × Draft) → Nat
  | [] => 0
  | (_, value) :: members => max value.nesting (nestingOfMembers members)

end

theorem nesting_le_of_mem_items {item : Draft} {items : List Draft} (h : item ∈ items) :
    item.nesting ≤ nestingOfItems items := by
  induction items with
  | nil => exact absurd h List.not_mem_nil
  | cons head items ih =>
    rw [nestingOfItems]
    rcases List.mem_cons.mp h with rfl | h
    · exact Nat.le_max_left _ _
    · exact Nat.le_trans (ih h) (Nat.le_max_right _ _)

theorem nesting_le_of_mem_members {key : String} {value : Draft}
    {members : List (String × Draft)} (h : (key, value) ∈ members) :
    value.nesting ≤ nestingOfMembers members := by
  induction members with
  | nil => exact absurd h List.not_mem_nil
  | cons head members ih =>
    obtain ⟨k, content⟩ := head
    rw [nestingOfMembers]
    rcases List.mem_cons.mp h with heq | h
    · cases heq
      exact Nat.le_max_left _ _
    · exact Nat.le_trans (ih h) (Nat.le_max_right _ _)

section Bound

variable {value : Reader} {n : Nat} (hvalue : ∀ ts, (value.read ts).found.nesting ≤ n)

include hvalue

theorem nestingOfItems_found_le (ts : List Token) :
    nestingOfItems (items value ts).found ≤ n := by
  fun_induction items value ts with
  | case1 ts item rest hread more ih =>
    have hitem := hvalue ts
    rw [hread] at hitem
    exact Nat.max_le.mpr ⟨hitem, ih⟩
  | case2 ts item rest hread | case3 ts item rest _ _ hread =>
    have hitem := hvalue ts
    rw [hread] at hitem
    exact Nat.max_le.mpr ⟨hitem, Nat.zero_le n⟩

theorem nestingOfMembers_found_le (ts : List Token) :
    nestingOfMembers (members value ts).found ≤ n := by
  fun_induction members value ts with
  | case1 key us item rest hread more ih =>
    have hitem := hvalue us
    rw [hread] at hitem
    exact Nat.max_le.mpr ⟨hitem, ih⟩
  | case2 key us item rest hread | case3 key us item rest _ _ hread =>
    have hitem := hvalue us
    rw [hread] at hitem
    exact Nat.max_le.mpr ⟨hitem, Nat.zero_le n⟩
  | case4 | case5 => exact Nat.zero_le n

end Bound

theorem nesting_leaf_le (n : Nat) (ts : List Token) : (leaf ts).found.nesting ≤ n := by
  unfold leaf
  split <;> exact Nat.zero_le n

theorem nesting_nested_le {value : Reader} {n : Nat}
    (hvalue : ∀ ts, (value.read ts).found.nesting ≤ n) (ts : List Token) :
    (nested value ts).found.nesting ≤ n + 1 := by
  unfold nested
  split
  · exact Nat.succ_le_succ (Nat.zero_le n)
  · exact Nat.succ_le_succ (nestingOfItems_found_le hvalue _)
  · exact Nat.succ_le_succ (Nat.zero_le n)
  · exact Nat.succ_le_succ (nestingOfMembers_found_le hvalue _)
  · exact nesting_leaf_le _ ts

/-- **A reader with `n` levels left finds at most `n` levels**, whatever it reads. -/
theorem nesting_read_le (n : Nat) : ∀ ts, ((reader n).read ts).found.nesting ≤ n := by
  induction n with
  | zero => exact nesting_leaf_le 0
  | succ n ih => exact nesting_nested_le ih

/-- The skimmer finds no more levels than it may. -/
theorem nesting_skim_le (n : Nat) : ∀ ts, ((skimmer n).read ts).found.nesting ≤ n := by
  induction n with
  | zero => exact nesting_leaf_le 0
  | succ n ih => exact nesting_nested_le ih

end Draft

/-- What is read of a text is nested no deeper than the limit. -/
theorem Document.nesting_read_le (source : String) :
    (Document.read source).draft.nesting ≤ nestingLimit :=
  Draft.nesting_read_le nestingLimit _

/-- What is skimmed of a text is nested no deeper than the limit. -/
theorem Document.nesting_skim_le (source : String) :
    (Document.skim source).draft.nesting ≤ nestingLimit :=
  Draft.nesting_skim_le nestingLimit _

end TypeExpr.Json
