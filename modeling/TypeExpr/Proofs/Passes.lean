import TypeExpr.Proofs.Language

/-!
# The two passes agree

A type that stands alone is decoded while its text is being read; a type in a request file is
decoded when the entry around it has been read to its end. The two passes may name different faults
of a text, but they accept the same texts and decode them to the same, with one exception: what has
no content may be stored with the empty object in the place of `null`.

The exception is put into the values. A value is *nulled* by writing `null` for the empty object
under each key that may stand for something without content (`Json.nulled`), at any depth. Then a
value is accepted when it is stored if and only if the nulled value is accepted when it is streamed.
For every decoder this is an equivalence between two successes, for one value and one result. That
of the nodes is by induction on the node: the key of an object decides what is under it, and under
the key of a form there is a body, whose parameters are smaller nodes.
-/

namespace TypeExpr

open Json (Draft Document Says under)

/-- The names of what may be given under its name, without content. -/
def unitKeys : List String :=
  ["anything", "nothing", "ellipsis"]

/-! ### Nulled values -/

namespace Json

/-- Whether a value is the empty object. -/
def isEmptyObject : Json → Bool
  | object [] => true
  | _ => false

mutual

/-- **The value with `null` for the empty object** under each key that may stand for something
without content. -/
def nulled : Json → Json
  | null => null
  | bool b => bool b
  | numeral n => numeral n
  | text s => text s
  | array items => array (nulledItems items)
  | object members => object (nulledMembers members)

/-- The items of an array, nulled. -/
def nulledItems : List Json → List Json
  | [] => []
  | item :: items => item.nulled :: nulledItems items

/-- The members of an object, nulled. -/
def nulledMembers : List (String × Json) → List (String × Json)
  | [] => []
  | (key, value) :: members =>
    (key, if key ∈ unitKeys ∧ value.isEmptyObject then null else value.nulled) ::
      nulledMembers members

end

/-- What becomes of a value under a key. -/
def nulledUnder (key : String) (value : Json) : Json :=
  if key ∈ unitKeys ∧ value.isEmptyObject then null else value.nulled

theorem nulledItems_eq_map (items : List Json) : nulledItems items = items.map nulled := by
  induction items with
  | nil => rfl
  | cons item items ih => rw [nulledItems, ih, List.map_cons]

theorem nulledMembers_eq_map (members : List (String × Json)) :
    nulledMembers members = members.map fun member => (member.1, member.2.nulledUnder member.1) := by
  induction members with
  | nil => rfl
  | cons member members ih => rw [nulledMembers, ih, List.map_cons, nulledUnder]

section Shapes

variable {key : String} {value : Json}

theorem nulledUnder_of_notMem (h : key ∉ unitKeys) : value.nulledUnder key = value.nulled :=
  if_neg fun hkey => h hkey.1

theorem nulled_eq_text_iff {s : String} : value.nulled = .text s ↔ value = .text s := by
  cases value <;> simp [nulled]

theorem nulled_eq_array_iff {others : List Json} :
    value.nulled = .array others ↔ ∃ items, value = .array items ∧ items.map nulled = others := by
  cases value <;> simp [nulled, nulledItems_eq_map]

theorem nulled_eq_object_iff {others : List (String × Json)} :
    value.nulled = .object others ↔
      ∃ members, value = .object members ∧ nulledMembers members = others := by
  cases value <;> simp [nulled]

/-- Under a key that asks for content nulling goes into the value, and nothing else changes. -/
theorem under_nulledMembers_eq_singleton_iff {members : List (String × Json)} {other : Json}
    (h : key ∉ unitKeys) :
    under key (nulledMembers members) = [other] ↔
      ∃ content, under key members = [content] ∧ content.nulled = other := by
  have hunder : under key (nulledMembers members) = (under key members).map nulled := by
    rw [nulledMembers_eq_map]
    induction members with
    | nil => rfl
    | cons member members ih =>
      obtain ⟨k, value⟩ := member
      rw [List.map_cons]
      by_cases hk : k = key
      · subst hk
        rw [under_cons_self, under_cons_self, ih, List.map_cons, nulledUnder_of_notMem h]
      · rw [under_cons_of_ne hk, under_cons_of_ne hk, ih]
  rw [hunder, List.map_eq_singleton_iff]

/-- What may be stored in the place of `null` is `null` in the nulled value. -/
theorem asUnit_nulledUnder_iff (h : key ∈ unitKeys) :
    (value.nulledUnder key).draft.asUnit .streamed = .ok () ↔
      value.draft.asUnit .stored = .ok () := by
  rw [asUnit_draft_iff, asUnit_draft_iff, nulledUnder]
  rcases value with _ | _ | _ | _ | _ | ⟨_ | ⟨member, members⟩⟩ <;>
    simp [h, isEmptyObject, nulled]

/-- A nulled value keeps within the limits. -/
theorem Admissible.nulled {n : Nat} (h : value.Admissible n) : value.nulled.Admissible n := by
  induction value generalizing n with
  | null | bool _ | numeral _ | text _ => exact h
  | array items ih =>
    obtain ⟨n, rfl⟩ := Nat.exists_eq_succ_of_ne_zero (Nat.ne_zero_of_lt h.nesting_le)
    have hitems := admissible_array_iff.mp h
    rw [Json.nulled, nulledItems_eq_map]
    refine admissible_array_iff.mpr (List.forall_mem_map.mpr fun item hitem => ?_)
    exact ih item hitem (hitems item hitem)
  | object members ih =>
    obtain ⟨n, rfl⟩ := Nat.exists_eq_succ_of_ne_zero (Nat.ne_zero_of_lt h.nesting_le)
    have hmembers := admissible_object_iff.mp h
    rw [Json.nulled, nulledMembers_eq_map]
    refine admissible_object_iff.mpr (List.forall_mem_map.mpr fun member hmember => ?_)
    change (member.2.nulledUnder member.1).Admissible n
    rw [nulledUnder]
    split
    · exact ⟨rfl, Nat.zero_le n⟩
    · exact ih member hmember (hmembers member hmember)

end Shapes

end Json

/-! ### Common shapes -/

section Shapes

variable {α : Type} {value : Json} {a : α}

/-- **Lists** agree if their items do. -/
theorem asList_nulled_iff {streamed stored : Draft → Except ReadError α}
    (h : ∀ (item : Json) a, streamed item.nulled.draft = .ok a ↔ stored item.draft = .ok a)
    {values : List α} :
    value.nulled.draft.asList streamed = .ok values ↔ value.draft.asList stored = .ok values := by
  simp only [asList_eq_ok_iff, Json.draft_eq_array_iff, Json.nulled_eq_array_iff, true_and]
  constructor
  · rintro ⟨_, ⟨_, ⟨items, rfl, rfl⟩, rfl⟩, hitems⟩
    rw [Json.drafts_eq_map, List.forall₂_map_left_iff, List.forall₂_map_left_iff] at hitems
    refine ⟨_, ⟨items, rfl, rfl⟩, ?_⟩
    rw [Json.drafts_eq_map, List.forall₂_map_left_iff]
    exact hitems.imp fun item a => (h item a).mp
  · rintro ⟨_, ⟨items, rfl, rfl⟩, hitems⟩
    rw [Json.drafts_eq_map, List.forall₂_map_left_iff] at hitems
    refine ⟨_, ⟨_, ⟨items, rfl, rfl⟩, rfl⟩, ?_⟩
    rw [Json.drafts_eq_map, List.forall₂_map_left_iff, List.forall₂_map_left_iff]
    exact hitems.imp fun item a => (h item a).mpr

/-- **Choices** agree if what is under their keys does. When there is a second key the two passes
find that out at different places, but both do. -/
theorem asChoice_nulled_iff {streamed stored : String → Draft → Except ReadError α}
    (h : ∀ key (content : Json), streamed key (content.nulledUnder key).draft = .ok a ↔
      stored key content.draft = .ok a) :
    value.nulled.draft.asChoice .streamed streamed = .ok a ↔
      value.draft.asChoice .stored stored = .ok a := by
  simp only [asChoice_eq_ok_iff, Json.draft_eq_choice_iff, Json.nulled_eq_object_iff]
  constructor
  · rintro ⟨key, _, ⟨content, ⟨members, rfl, hmembers⟩, rfl⟩, hcontent⟩
    rw [Json.nulledMembers_eq_map, List.map_eq_singleton_iff] at hmembers
    obtain ⟨⟨k, c⟩, rfl, hmember⟩ := hmembers
    obtain ⟨rfl, rfl⟩ := Prod.mk.inj hmember
    exact ⟨k, _, ⟨c, rfl, rfl⟩, (h k c).mp hcontent⟩
  · rintro ⟨key, _, ⟨content, rfl, rfl⟩, hcontent⟩
    exact ⟨key, _, ⟨_, ⟨_, rfl, rfl⟩, rfl⟩, (h key content).mpr hcontent⟩

end Shapes

/-! ### Nodes, arguments and parameters -/

namespace Node

/-- **The values that denote a body**: the array of the base and the parameters, or an object with
these two. -/
inductive BodyDenotes (base : String) (items : List Json) : Json → Prop
  | ordered : BodyDenotes base items (.array [.text base, .array items])
  | keyed {members : List (String × Json)} : under "base" members = [.text base] →
    under "params" members = [.array items] → BodyDenotes base items (.object members)

theorem isBody_draft_iff {value : Json} {base : String} {ds : List Draft} :
    IsBody base ds value.draft ↔ ∃ items, BodyDenotes base items value ∧ Json.drafts items = ds := by
  constructor
  · intro h
    generalize hd : value.draft = d at h
    rcases h with _ | ⟨hbase, hparams⟩
    · obtain ⟨-, contents, rfl, hcontents⟩ := Json.draft_eq_array_iff.mp hd
      rw [Json.drafts_eq_map, List.map_eq_cons_iff] at hcontents
      obtain ⟨first, rest, rfl, hfirst, hrest⟩ := hcontents
      obtain ⟨second, rfl, hsecond⟩ := List.map_eq_singleton_iff.mp hrest
      obtain rfl := Json.draft_eq_text_iff.mp hfirst
      obtain ⟨-, items, rfl, hitems⟩ := Json.draft_eq_array_iff.mp hsecond
      exact ⟨items, .ordered, hitems⟩
    · obtain ⟨-, members, rfl, rfl⟩ := Json.draft_eq_object_iff.mp hd
      obtain ⟨items, hunder, hitems⟩ := Json.sole_array_iff.mp hparams
      exact ⟨items, .keyed (Json.sole_text_iff.mp hbase) hunder, hitems⟩
  · rintro ⟨items, _ | ⟨hbase, hparams⟩, rfl⟩
    · exact .ordered
    · exact .keyed (Json.sole_text_iff.mpr hbase)
        (Json.sole_array_iff.mpr ⟨items, hparams, rfl⟩)

/-- **A nulled body** has the same base, and its parameters are nulled. -/
theorem bodyDenotes_nulled_iff {value : Json} {base : String} {others : List Json} :
    BodyDenotes base others value.nulled ↔
      ∃ items, BodyDenotes base items value ∧ items.map Json.nulled = others := by
  have hbase : "base" ∉ unitKeys := by decide
  have hparams : "params" ∉ unitKeys := by decide
  constructor
  · intro h
    generalize hv : value.nulled = v at h
    rcases h with _ | ⟨hname, hitems⟩
    · obtain ⟨contents, rfl, hcontents⟩ := Json.nulled_eq_array_iff.mp hv
      obtain ⟨first, rest, rfl, hfirst, hrest⟩ := List.map_eq_cons_iff.mp hcontents
      obtain ⟨second, rfl, hsecond⟩ := List.map_eq_singleton_iff.mp hrest
      obtain rfl := Json.nulled_eq_text_iff.mp hfirst
      obtain ⟨items, rfl, hitems⟩ := Json.nulled_eq_array_iff.mp hsecond
      exact ⟨items, .ordered, hitems⟩
    · obtain ⟨members, rfl, rfl⟩ := Json.nulled_eq_object_iff.mp hv
      obtain ⟨first, hfirst, hname⟩ := (Json.under_nulledMembers_eq_singleton_iff hbase).mp hname
      obtain ⟨second, hsecond, hothers⟩ :=
        (Json.under_nulledMembers_eq_singleton_iff hparams).mp hitems
      obtain rfl := Json.nulled_eq_text_iff.mp hname
      obtain ⟨items, rfl, hmap⟩ := Json.nulled_eq_array_iff.mp hothers
      exact ⟨items, .keyed hfirst hsecond, hmap⟩
  · rintro ⟨items, _ | ⟨hname, hitems⟩, rfl⟩
    · rw [← Json.nulledItems_eq_map]
      exact .ordered
    · have hnulled := Json.nulled_eq_array_iff.mpr ⟨items, rfl, rfl⟩
      exact .keyed ((Json.under_nulledMembers_eq_singleton_iff hbase).mpr ⟨_, hname, rfl⟩)
        ((Json.under_nulledMembers_eq_singleton_iff hparams).mpr ⟨_, hitems, hnulled⟩)

/-- **Bodies** agree if their parameters do. -/
theorem ofBody_nulled_iff {value : Json} {base : String} {params : List Node}
    (h : ∀ param ∈ params, ∀ item : Json,
      ofDraft .streamed item.nulled.draft = .ok param ↔ ofDraft .stored item.draft = .ok param) :
    ofBody .streamed value.nulled.draft = .ok (base, params) ↔
      ofBody .stored value.draft = .ok (base, params) := by
  simp only [ofBody_eq_ok_iff, isBody_draft_iff, bodyDenotes_nulled_iff, ofItems_eq_ok_iff]
  constructor
  · rintro ⟨_, ⟨_, ⟨items, hbody, rfl⟩, rfl⟩, hparams⟩
    rw [Json.drafts_eq_map, List.forall₂_map_left_iff, List.forall₂_map_left_iff] at hparams
    refine ⟨_, ⟨items, hbody, rfl⟩, ?_⟩
    rw [Json.drafts_eq_map, List.forall₂_map_left_iff]
    exact forall₂_imp_of_mem hparams fun param hparam item => (h param hparam item).mp
  · rintro ⟨_, ⟨items, hbody, rfl⟩, hparams⟩
    rw [Json.drafts_eq_map, List.forall₂_map_left_iff] at hparams
    refine ⟨_, ⟨_, ⟨items, hbody, rfl⟩, rfl⟩, ?_⟩
    rw [Json.drafts_eq_map, List.forall₂_map_left_iff, List.forall₂_map_left_iff]
    exact forall₂_imp_of_mem hparams fun param hparam item => (h param hparam item).mpr

/-- **Leaves** agree: a special type has no content, and a name is a string. -/
theorem ofLeaf_nulled_iff {key : String} {content : Json} {node : Node} :
    ofLeaf .streamed key (content.nulledUnder key).draft = .ok node ↔
      ofLeaf .stored key content.draft = .ok node := by
  rw [ofLeaf_eq_ok_iff, ofLeaf_eq_ok_iff]
  refine or_congr (and_congr_right fun hkey => ?_) (and_congr_right fun hname => ?_)
  · rw [Json.nulledUnder_of_notMem (by rw [hkey]; decide)]
    simp only [Json.draft_eq_text_iff, Json.nulled_eq_text_iff]
  · refine Json.asUnit_nulledUnder_iff ?_
    rcases ofName?_eq_some_iff.mp hname with ⟨rfl, -⟩ | ⟨rfl, -⟩ <;> decide

/-- **Nodes**: what is stored is accepted as a node if and only if it is accepted, nulled, when it
is streamed. -/
theorem ofDraft_nulled_iff {value : Json} {node : Node} :
    ofDraft .streamed value.nulled.draft = .ok node ↔ ofDraft .stored value.draft = .ok node := by
  induction node using induct_params generalizing value with
  | step node ih =>
    cases value with
    | null | bool _ | numeral _ | text _ | array _ => exact Iff.rfl
    | object members =>
      rcases members with _ | ⟨⟨key, content⟩, more⟩
      · exact Iff.rfl
      · -- nulling leaves the key in its place, and there is another key behind it or there is not
        change ofDraft .streamed (.object ((key, (content.nulledUnder key).draft) ::
          Json.memberDrafts (Json.nulledMembers more)) true) = _ ↔
            ofDraft .stored (.object ((key, content.draft) :: Json.memberDrafts more) true) = _
        rw [ofDraft_object_eq_ok_iff, ofDraft_object_eq_ok_iff, Json.nulledMembers_eq_map,
          Json.memberDrafts_eq_map, Json.memberDrafts_eq_map, List.map_eq_nil_iff,
          List.map_eq_nil_iff, List.map_eq_nil_iff]
        refine and_congr_right fun _ => and_congr_right fun _ => ?_
        -- the key decides whether there is a body under it
        cases hform : Form.ofKey? key with
        | none => exact ofLeaf_nulled_iff
        | some form =>
          have hkey : key ∉ unitKeys := by
            rw [Form.ofKey?_eq_some_iff.mp hform]
            cases form <;> decide
          dsimp only
          rw [Json.nulledUnder_of_notMem hkey]
          refine exists_congr fun base => exists_congr fun params => and_congr_right fun hnode =>
            and_congr_left fun _ => ?_
          subst hnode
          exact ofBody_nulled_iff fun param hparam item => ih param hparam

end Node

namespace Argument

theorem ofContent_nulled_iff {key : String} {content : Json} {item : Argument} :
    ofContent .streamed key (content.nulledUnder key).draft = .ok item ↔
      ofContent .stored key content.draft = .ok item := by
  rw [ofContent, ofContent]
  split
  · rename_i hkey
    rw [Json.nulledUnder_of_notMem (by rw [hkey]; decide)]
    simp only [bind_eq_ok_iff, Node.ofDraft_nulled_iff]
  · split
    · rename_i hkey
      simp only [bind_eq_ok_iff, Json.asUnit_nulledUnder_iff (show key ∈ unitKeys by
        rw [hkey]; decide)]
    · exact Iff.rfl

theorem ofDraft_of_ne_text {pass : Pass} {d : Draft} (h : ∀ name, d ≠ .text name) :
    ofDraft pass d = d.asChoice pass (ofContent pass) := by
  unfold ofDraft
  split
  · exact absurd rfl (h _)
  · rfl

/-- **Argument items**: what is stored is accepted if and only if it is accepted, nulled, when it is
streamed. -/
theorem ofDraft_nulled_iff {value : Json} {item : Argument} :
    ofDraft .streamed value.nulled.draft = .ok item ↔ ofDraft .stored value.draft = .ok item := by
  by_cases htext : ∃ name, value = .text name
  · obtain ⟨name, rfl⟩ := htext
    rw [ofDraft_eq_ok_iff, ofDraft_eq_ok_iff]
    constructor
    all_goals
      rintro ⟨⟩
      exact .name
  · rw [ofDraft_of_ne_text, ofDraft_of_ne_text]
    · exact asChoice_nulled_iff fun _ _ => ofContent_nulled_iff
    · exact fun name h => htext ⟨name, Json.draft_eq_text_iff.mp h⟩
    · exact fun name h => htext ⟨name, Json.nulled_eq_text_iff.mp (Json.draft_eq_text_iff.mp h)⟩

end Argument

namespace Parameter

theorem ofContent_nulled_iff {key : String} {content : Json} {param : Parameter} :
    ofContent .streamed key (content.nulledUnder key).draft = .ok param ↔
      ofContent .stored key content.draft = .ok param := by
  rw [ofContent, ofContent]
  split
  · rename_i hkey
    rw [Json.nulledUnder_of_notMem (by rw [hkey]; decide)]
    simp only [bind_eq_ok_iff, asList_nulled_iff fun _ _ => Argument.ofDraft_nulled_iff]
  · split
    · rename_i hkey
      rw [Json.nulledUnder_of_notMem (by rw [hkey]; decide)]
      simp only [bind_eq_ok_iff, Node.ofDraft_nulled_iff]
    · exact Iff.rfl

/-- **Parameters**: what is stored is accepted if and only if it is accepted, nulled, when it is
streamed. -/
theorem ofDraft_nulled_iff {value : Json} {param : Parameter} :
    ofDraft .streamed value.nulled.draft = .ok param ↔ ofDraft .stored value.draft = .ok param :=
  asChoice_nulled_iff fun _ _ => ofContent_nulled_iff

end Parameter

/-! ### Files -/

namespace Entry

variable {value : Json} {entry : Entry}

/-- An entry whose operation is given by its name, and that has no line. -/
theorem denotes_iff_of_op {members : List (String × Json)} {op : Op}
    (hop : under "op" members = [.text op.name]) (hline : under "line" members = []) :
    Denotes (.object members) entry ↔
      entry.request.op = op ∧ entry.request.Denotes members ∧ entry.line = none := by
  constructor
  · rintro ⟨hunder, hoperation, hrequest, hnumber⟩
    rw [hop] at hunder
    obtain rfl := (List.cons.inj hunder).1
    have hname := Op.ofDraft_draft_eq_ok_iff.mpr hoperation
    rw [Op.ofDraft_draft_eq_ok_iff.mpr .name] at hname
    rw [hline] at hnumber
    refine ⟨(Except.ok.inj hname).symm, hrequest, ?_⟩
    generalize entry.line = line at hnumber
    cases hnumber
    rfl
  · rintro ⟨rfl, hrequest, hnone⟩
    refine .mk hop .name hrequest ?_
    rw [hline, hnone]
    exact .absent

/-- The entry that asks whether a stored type is the dynamic type. -/
theorem denotes_isAny_iff :
    Denotes (.object [("op", .text "is_any"), ("value", value)]) entry ↔
      ∃ node, Node.ofDraft .stored value.draft = .ok node ∧ entry = ⟨.isAny node, none⟩ := by
  rw [denotes_iff_of_op (show under "op" _ = [.text Op.isAny.name] from rfl) rfl]
  constructor
  · rintro ⟨hop, hrequest, hline⟩
    obtain ⟨request, line⟩ := entry
    obtain rfl : line = none := hline
    cases request with
    | isAny node =>
      obtain ⟨content, hcontent, hnode⟩ := hrequest
      obtain rfl : value = content := (List.cons.inj hcontent).1
      exact ⟨node, Node.ofDraft_eq_ok_iff.mpr hnode, rfl⟩
    | _ => cases hop
  · rintro ⟨node, hnode, rfl⟩
    exact ⟨rfl, ⟨value, rfl, Node.ofDraft_eq_ok_iff.mp hnode⟩, rfl⟩

/-- The entry that builds a callable from one stored parameter. -/
theorem denotes_callable_iff :
    Denotes (.object [("op", .text "callable"), ("base", .text "f"),
      ("params", .array [value])]) entry ↔
      ∃ param, Parameter.ofDraft .stored value.draft = .ok param ∧
        entry = ⟨.callable "f" [param], none⟩ := by
  rw [denotes_iff_of_op (show under "op" _ = [.text Op.callable.name] from rfl) rfl]
  constructor
  · rintro ⟨hop, hrequest, hline⟩
    obtain ⟨request, line⟩ := entry
    obtain rfl : line = none := hline
    cases request with
    | callable base params =>
      obtain ⟨hbase, items, hitems, hparams⟩ := hrequest
      obtain ⟨rfl⟩ := (List.cons.inj hbase).1
      obtain ⟨rfl⟩ := (List.cons.inj hitems).1
      obtain ⟨param, rest, hparam, hrest, rfl⟩ := List.forall₂_cons_left_iff.mp hparams
      obtain rfl := List.forall₂_nil_left_iff.mp hrest
      exact ⟨param, Parameter.ofDraft_eq_ok_iff.mpr hparam, rfl⟩
    | _ => cases hop
  · rintro ⟨param, hparam, rfl⟩
    exact ⟨rfl, ⟨rfl, [value], rfl, .cons (Parameter.ofDraft_eq_ok_iff.mp hparam) .nil⟩, rfl⟩

end Entry

/-- A text that says an array of one item is a file of the one entry that the item denotes. -/
theorem RequestFile.parse_eq_ok_iff_denotes {path source : String} {item : Json}
    {file : RequestFile} (hsource : Says source (.array [item]))
    (hitem : (Json.array [item]).Admissible Json.nestingLimit) :
    (parse path source).value = .ok file ↔
      ∃ entry, Entry.Denotes item entry ∧ file = ⟨path, Text.lines source, [entry]⟩ := by
  rw [parse_eq_ok_iff, readEntries_eq_ok_iff_forall₂ hsource hitem]
  constructor
  · rintro ⟨rfl, hlines, hentries⟩
    obtain ⟨entry, rest, hentry, hrest, heq⟩ := List.forall₂_cons_left_iff.mp hentries
    obtain rfl := List.forall₂_nil_left_iff.mp hrest
    exact ⟨entry, hentry, by rw [← hlines, ← heq]⟩
  · rintro ⟨entry, hentry, rfl⟩
    exact ⟨rfl, rfl, .cons hentry .nil⟩

/-- **The two passes agree.** A value of at most 124 levels is stored as the type that a request asks
about, and as the one parameter of a callable that a request builds, in texts that may put blanks
and escapes as they like. The first file is accepted with a type if and only if the nulled value,
in a text of its own, is accepted as this type; the second, if and only if it is accepted as the
parameter. -/
theorem passes_agree {value : Json} (hvalue : value.Admissible 124) {asked built alone : String}
    (hasked : Says asked (.array [.object [("op", .text "is_any"), ("value", value)]]))
    (hbuilt : Says built (.array [.object [("op", .text "callable"), ("base", .text "f"),
      ("params", .array [value])]]))
    (halone : Says alone value.nulled) (path : String) :
    (∀ file, (RequestFile.parse path asked).value = .ok file ↔
      ∃ node, Node.read alone = .ok node ∧
        file = ⟨path, Text.lines asked, [⟨.isAny node, none⟩]⟩) ∧
    ∀ file, (RequestFile.parse path built).value = .ok file ↔
      ∃ param, Parameter.read alone = .ok param ∧
        file = ⟨path, Text.lines built, [⟨.callable "f" [param], none⟩]⟩ := by
  have hrange := hvalue.inRange
  have hnesting := hvalue.nesting_le
  have hasked' : (Json.array [.object [("op", .text "is_any"),
      ("value", value)]]).Admissible Json.nestingLimit := by
    refine ⟨by simp [Json.inRange, Json.allInRange, Json.membersInRange, hrange], ?_⟩
    simp only [Json.nesting, Json.nestingOfItems, Json.nestingOfMembers, Json.nestingLimit]
    omega
  have hbuilt' : (Json.array [.object [("op", .text "callable"), ("base", .text "f"),
      ("params", .array [value])]]).Admissible Json.nestingLimit := by
    refine ⟨by simp [Json.inRange, Json.allInRange, Json.membersInRange, hrange], ?_⟩
    simp only [Json.nesting, Json.nestingOfItems, Json.nestingOfMembers, Json.nestingLimit]
    omega
  have halone' : value.nulled.Admissible Json.nestingLimit := hvalue.nulled.mono (by decide)
  have hnode : Node.read alone = Node.ofDraft .streamed value.nulled.draft :=
    decodeText_eq_decode halone halone'
  have hparam : Parameter.read alone = Parameter.ofDraft .streamed value.nulled.draft :=
    decodeText_eq_decode halone halone'
  constructor
  · intro file
    simp only [RequestFile.parse_eq_ok_iff_denotes hasked hasked', Entry.denotes_isAny_iff,
      hnode, Node.ofDraft_nulled_iff]
    constructor
    · rintro ⟨_, ⟨node, hnode, rfl⟩, rfl⟩
      exact ⟨node, hnode, rfl⟩
    · rintro ⟨node, hnode, rfl⟩
      exact ⟨_, ⟨node, hnode, rfl⟩, rfl⟩
  · intro file
    simp only [RequestFile.parse_eq_ok_iff_denotes hbuilt hbuilt', Entry.denotes_callable_iff,
      hparam, Parameter.ofDraft_nulled_iff]
    constructor
    · rintro ⟨_, ⟨param, hparam, rfl⟩, rfl⟩
      exact ⟨param, hparam, rfl⟩
    · rintro ⟨param, hparam, rfl⟩
      exact ⟨_, ⟨param, hparam, rfl⟩, rfl⟩

/-- An ellipsis with the empty object under its name, stored among the arguments of a parameter. -/
theorem passes_agree_ellipsis :
    ∃ built, Says built (.array [.object [("op", .text "callable"), ("base", .text "f"),
        ("params", .array [.object [("args", .array [.object [("ellipsis", .object [])]])]])]]) ∧
      (RequestFile.parse "requests.json" built).value =
        .ok ⟨"requests.json", Text.lines built, [⟨.callable "f" [.args [.ellipsis]], none⟩]⟩ := by
  have hvalue : (Json.object [("args", .array [.object [("ellipsis", .object [])]])]).Admissible
      124 := ⟨rfl, by decide⟩
  have hasked : Says _ (.array [.object [("op", .text "is_any"),
      ("value", .object [("args", .array [.object [("ellipsis", .object [])]])])]]) :=
    Json.says_compact _
  have hbuilt : Says _ (.array [.object [("op", .text "callable"), ("base", .text "f"),
      ("params", .array [.object [("args", .array [.object [("ellipsis", .object [])]])]])]]) :=
    Json.says_compact _
  have halone : Says _ (.object [("args", .array [.object [("ellipsis", .null)]])]) :=
    Json.says_compact _
  have hread : Parameter.read _ = .ok (.args [.ellipsis]) :=
    (decodeText_eq_decode halone ⟨rfl, by decide⟩).trans rfl
  exact ⟨_, hbuilt,
    ((passes_agree hvalue hasked hbuilt halone "requests.json").2 _).mpr ⟨_, hread, rfl⟩⟩

end TypeExpr
