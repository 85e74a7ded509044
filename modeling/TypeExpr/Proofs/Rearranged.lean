import TypeExpr.Proofs.FirstFailure
import TypeExpr.Proofs.Passes

/-!
# Members in another order, and members that nobody asks for

An object is decoded in the order of its text. A record finds out on the way which of its members
it has seen, an entry takes out its line number before it knows what else to look for, and members
under unknown keys are passed over, with conditions of their own in each place. None of this can be
seen from the result: what is decoded depends on what stands under each key that is asked for, and
on nothing else.

This is told by edits, one at a time.

| edit | where |
|---|---|
| members of an object change places | everywhere |
| a member comes in under a key other than `base` and `params` | in the body of a form |
| a member comes in under a key that its request does not ask for | in an entry |

A file is *rearranged* by edits in either direction and any number (`RequestFile.Rearranged`), so
members may also go. One edit does not change which entry is denoted, and the proof is one lemma
for each layer: what stands under a key, then nodes by induction on the node, then the parameters,
requests and entries that contain them. Each of them is an equivalence, for acceptance is to be the
same in both directions, although a member may only come in.
-/

namespace TypeExpr

open Json (Draft Says under)

/-! ### Edits of a value -/

namespace Json

/-- **One edit of a value**, which is the body of a form or is not. Wherever the edit is made, what is
around it stays as it is. A member that comes in must be legal for the reader. That every value can be
written is part of the type, so what is left to ask for are the numerals: one like `1e999` is out of
range wherever it stands, and with it in a member that nobody asks for the file would be refused. -/
inductive Edit : Option Form → Json → Json → Prop
  | permuted {form? : Option Form} {members others : List (String × Json)} :
    members.Perm others → Edit form? (object members) (object others)
  | added {form : Form} {key : String} {value : Json} {members : List (String × Json)} :
    key ≠ "base" → key ≠ "params" → value.inRange = true →
      Edit (some form) (object members) (object ((key, value) :: members))
  | inItem {form? : Option Form} {before after : List Json} {a b : Json} : Edit none a b →
    Edit form? (array (before ++ a :: after)) (array (before ++ b :: after))
  | inMember {form? : Option Form} {before after : List (String × Json)} {key : String}
    {a b : Json} : Edit (Form.ofKey? key) a b →
      Edit form? (object (before ++ (key, a) :: after)) (object (before ++ (key, b) :: after))

/-! ### What no edit changes -/

theorem perm_eq_nil_iff {α : Type} {xs ys : List α} (h : xs.Perm ys) : xs = [] ↔ ys = [] := by
  rw [← List.perm_nil, ← List.perm_nil]
  exact ⟨h.symm.trans, h.trans⟩

theorem perm_eq_singleton_iff {α : Type} {xs ys : List α} (h : xs.Perm ys) {x : α} :
    xs = [x] ↔ ys = [x] := by
  rw [← List.perm_singleton, ← List.perm_singleton]
  exact ⟨h.symm.trans, h.trans⟩

/-- Exactly one member stands under a key, and its content has a property. -/
def Holds (key : String) (P : Json → Prop) (members : List (String × Json)) : Prop :=
  ∃ content, under key members = [content] ∧ P content

/-- A value is an array, and its items are related to the elements of a list. -/
def ArrayOf {α : Type} (R : Json → α → Prop) (values : List α) (value : Json) : Prop :=
  ∃ items, value = array items ∧ List.Forall₂ R items values

/-- A value is an object with one member, which has a property. -/
def ChoiceOf (P : String → Json → Prop) (value : Json) : Prop :=
  ∃ key content, value = object [(key, content)] ∧ P key content

section Edit

variable {form? : Option Form} {a b : Json} {members others : List (String × Json)} {key : String}

/-- Edits are made inside arrays and objects. -/
theorem Edit.shape (h : Edit form? a b) :
    (∃ items others, a = array items ∧ b = array others) ∨
      ∃ members others, a = object members ∧ b = object others := by
  cases h with
  | permuted | added | inMember => exact .inr ⟨_, _, rfl, rfl⟩
  | inItem => exact .inl ⟨_, _, rfl, rfl⟩

/-- Numerals stay in range, or out of it. -/
theorem Edit.inRange_iff (h : Edit form? a b) : a.inRange = true ↔ b.inRange = true := by
  induction h with
  | permuted hperm => simp only [inRange, membersInRange_iff, hperm.mem_iff]
  | added _ _ hvalue => simp only [inRange, membersInRange, hvalue, Bool.true_and]
  | inItem _ ih => simp only [inRange, allInRange_iff, List.forall_mem_append,
      List.forall_mem_cons, ih]
  | inMember _ ih => simp only [inRange, membersInRange_iff, List.forall_mem_append,
      List.forall_mem_cons, ih]

theorem Edit.eq_text_iff (h : Edit form? a b) {s : String} : a = text s ↔ b = text s := by
  rcases h.shape with ⟨_, _, rfl, rfl⟩ | ⟨_, _, rfl, rfl⟩ <;> simp

/-- **What stands under a key** that is asked for keeps its properties, if edits keep them. -/
theorem Edit.holds_iff (h : Edit form? (object members) (object others))
    (hkey : form? = none ∨ key = "base" ∨ key = "params") {P : Json → Prop}
    (hP : ∀ x y, Edit (Form.ofKey? key) x y → (P x ↔ P y)) :
    Holds key P members ↔ Holds key P others := by
  cases h with
  | permuted hperm => simp only [Holds, perm_eq_singleton_iff (under_perm hperm)]
  | @added form k value _ hbase hparams _ =>
    have hk : k ≠ key := by
      rcases hkey with hnone | rfl | rfl
      · cases hnone
      · exact hbase
      · exact hparams
    rw [Holds, Holds, under_cons_of_ne hk]
  | @inMember _ before after k x y hxy =>
    rw [Holds, Holds, under_around, under_around]
    split
    · rename_i hk
      subst hk
      -- the edited member is the only one under the key, or it is one of several
      simp [List.append_eq_singleton_iff, hP x y hxy]
    · exact Iff.rfl

theorem Edit.under_eq_nil_iff (h : Edit none (object members) (object others)) :
    under key members = [] ↔ under key others = [] := by
  cases h with
  | permuted hperm => exact perm_eq_nil_iff (under_perm hperm)
  | inMember =>
    rw [under_around, under_around]
    split <;> simp

/-- **The items of an array** stay related to what they were related to, if edits keep the
relation. -/
theorem Edit.arrayOf_iff {α : Type} {R : Json → α → Prop} {values : List α} (h : Edit form? a b)
    (hR : ∀ value ∈ values, ∀ x y, Edit none x y → (R x value ↔ R y value)) :
    ArrayOf R values a ↔ ArrayOf R values b := by
  cases h with
  | permuted | added | inMember => simp [ArrayOf]
  | @inItem _ before after x y hxy =>
    simp only [ArrayOf, array.injEq, exists_eq_left', forall₂_around_iff]
    refine exists_congr fun us => exists_congr fun value => exists_congr fun vs =>
      and_congr_right fun hvalues => ?_
    subst hvalues
    rw [hR value (by simp) x y hxy]

/-- **The one member of an object** keeps its properties, if edits keep them. -/
theorem Edit.choiceOf_iff {P : String → Json → Prop} (h : Edit none a b)
    (hP : ∀ key x y, Edit (Form.ofKey? key) x y → (P key x ↔ P key y)) :
    ChoiceOf P a ↔ ChoiceOf P b := by
  cases h with
  | permuted hperm => simp only [ChoiceOf, object.injEq, perm_eq_singleton_iff hperm]
  | inItem => simp [ChoiceOf]
  | @inMember _ before after key x y hxy =>
    simp [ChoiceOf, List.append_eq_singleton_iff, hP key x y hxy]

theorem Edit.asUnit_iff {pass : Pass} (h : Edit none a b) :
    a.draft.asUnit pass = .ok () ↔ b.draft.asUnit pass = .ok () := by
  rw [asUnit_draft_iff, asUnit_draft_iff]
  cases h with
  | permuted hperm => simp [perm_eq_nil_iff hperm]
  | inItem | inMember => simp

end Edit

theorem asList_draft_iff {α : Type} {decode : Draft → Except ReadError α} {value : Json}
    {values : List α} :
    value.draft.asList decode = .ok values ↔
      ArrayOf (fun item a => decode item.draft = .ok a) values value := by
  simp only [asList_eq_ok_iff, draft_eq_array_iff, true_and, drafts_eq_map]
  constructor
  · rintro ⟨_, ⟨items, rfl, rfl⟩, hitems⟩
    exact ⟨items, rfl, List.forall₂_map_left_iff.mp hitems⟩
  · rintro ⟨items, rfl, hitems⟩
    exact ⟨_, ⟨items, rfl, rfl⟩, List.forall₂_map_left_iff.mpr hitems⟩

theorem asChoice_draft_iff {α : Type} {pass : Pass} {decode : String → Draft → Except ReadError α}
    {value : Json} {a : α} :
    value.draft.asChoice pass decode = .ok a ↔
      ChoiceOf (fun key content => decode key content.draft = .ok a) value := by
  simp only [asChoice_eq_ok_iff, draft_eq_choice_iff]
  constructor
  · rintro ⟨key, _, ⟨content, rfl, rfl⟩, hcontent⟩
    exact ⟨key, content, rfl, hcontent⟩
  · rintro ⟨key, content, rfl, hcontent⟩
    exact ⟨key, _, ⟨content, rfl, rfl⟩, hcontent⟩

end Json

/-! ### Nodes, arguments and parameters -/

namespace Node

open Json (ArrayOf ChoiceOf Holds Edit)

/-- A body by its parts: the items of an array, or what stands under the two keys of an object. -/
theorem ofBody_draft_eq_ok_iff {pass : Pass} {value : Json} {base : String} {params : List Node} :
    ofBody pass value.draft = .ok (base, params) ↔
      ArrayOf (fun item (P : Json → Prop) => P item)
        [(· = .text base), ArrayOf (fun item param => ofDraft pass item.draft = .ok param) params]
        value ∨
      ∃ members, value = .object members ∧ Holds "base" (· = .text base) members ∧
        Holds "params" (ArrayOf (fun item param => ofDraft pass item.draft = .ok param) params)
          members := by
  simp only [ofBody_eq_ok_iff, isBody_draft_iff, ofItems_eq_ok_iff]
  constructor
  · rintro ⟨_, ⟨items, hbody, rfl⟩, hitems⟩
    rw [Json.drafts_eq_map, List.forall₂_map_left_iff] at hitems
    cases hbody with
    | ordered => exact .inl ⟨_, rfl, .cons rfl (.cons ⟨items, rfl, hitems⟩ .nil)⟩
    | keyed hbase hparams => exact .inr ⟨_, rfl, ⟨_, hbase, rfl⟩, _, hparams, items, rfl, hitems⟩
  · rintro (⟨_, rfl, hcontents⟩ | ⟨members, rfl, ⟨_, hbase, rfl⟩, _, hparams, items, rfl, hitems⟩)
    · obtain ⟨_, _, rfl, hrest, rfl⟩ := List.forall₂_cons_right_iff.mp hcontents
      obtain ⟨_, _, ⟨items, rfl, hitems⟩, hnil, rfl⟩ := List.forall₂_cons_right_iff.mp hrest
      obtain rfl := List.forall₂_nil_right_iff.mp hnil
      refine ⟨_, ⟨items, .ordered, rfl⟩, ?_⟩
      rw [Json.drafts_eq_map, List.forall₂_map_left_iff]
      exact hitems
    · refine ⟨_, ⟨items, .keyed hbase hparams, rfl⟩, ?_⟩
      rw [Json.drafts_eq_map, List.forall₂_map_left_iff]
      exact hitems

/-- **Bodies** are decoded as before, if their parameters are. -/
theorem ofBody_edit_iff {pass : Pass} {form : Form} {a b : Json} {base : String}
    {params : List Node} (h : Edit (some form) a b)
    (hparams : ∀ param ∈ params, ∀ x y, Edit none x y →
      (ofDraft pass x.draft = .ok param ↔ ofDraft pass y.draft = .ok param)) :
    ofBody pass a.draft = .ok (base, params) ↔ ofBody pass b.draft = .ok (base, params) := by
  rw [ofBody_draft_eq_ok_iff, ofBody_draft_eq_ok_iff]
  have hbase (x y : Json) (hxy : Edit none x y) : x = .text base ↔ y = .text base := hxy.eq_text_iff
  refine or_congr (h.arrayOf_iff ?_) ?_
  · refine List.forall_mem_cons.mpr ⟨hbase, List.forall_mem_singleton.mpr ?_⟩
    exact fun x y hxy => hxy.arrayOf_iff hparams
  · rcases h.shape with ⟨_, _, rfl, rfl⟩ | ⟨members, others, rfl, rfl⟩
    · simp
    · simp only [Json.object.injEq, exists_eq_left']
      exact and_congr (h.holds_iff (.inr (.inl rfl)) hbase)
        (h.holds_iff (.inr (.inr rfl)) fun x y hxy => hxy.arrayOf_iff hparams)

/-- **Leaves** are decoded as before: a name and a special type have no members. -/
theorem ofLeaf_edit_iff {pass : Pass} {key : String} {a b : Json} {node : Node}
    (h : Edit none a b) :
    ofLeaf pass key a.draft = .ok node ↔ ofLeaf pass key b.draft = .ok node := by
  simp only [ofLeaf_eq_ok_iff, Json.draft_eq_text_iff, h.eq_text_iff, h.asUnit_iff]

/-- A node that is no name is a choice. -/
theorem ofDraft_draft_eq_ok_iff {pass : Pass} {value : Json} {node : Node}
    (hne : ∀ name, value ≠ .text name) :
    ofDraft pass value.draft = .ok node ↔
      ChoiceOf (fun key content =>
        match Form.ofKey? key with
        | some form => ∃ base params, node = applied form base params ∧
            ofBody pass content.draft = .ok (base, params) ∧ (form = .callable → params ≠ [])
        | none => ofLeaf pass key content.draft = .ok node) value := by
  cases value with
  | text name => exact absurd rfl (hne name)
  | object members =>
    rcases members with _ | ⟨⟨key, content⟩, more⟩
    · exact iff_of_false (fun h => by cases h) (fun ⟨_, _, h, _⟩ => by cases h)
    · rw [Json.draft, Json.memberDrafts, ofDraft_object_eq_ok_iff, Json.memberDrafts_eq_map,
        List.map_eq_nil_iff]
      constructor
      · rintro ⟨rfl, -, hcontent⟩
        exact ⟨key, content, rfl, hcontent⟩
      · rintro ⟨k, c, heq, hcontent⟩
        cases heq
        exact ⟨rfl, rfl, hcontent⟩
  | _ => exact iff_of_false (fun h => by cases h) (fun ⟨_, _, h, _⟩ => by cases h)

/-- **Nodes** are decoded as before. -/
theorem ofDraft_edit_iff {pass : Pass} {a b : Json} {node : Node} (h : Edit none a b) :
    ofDraft pass a.draft = .ok node ↔ ofDraft pass b.draft = .ok node := by
  induction node using induct_params generalizing a b with
  | step node ih =>
    have hne : (∀ name, a ≠ .text name) ∧ ∀ name, b ≠ .text name := by
      rcases h.shape with ⟨_, _, rfl, rfl⟩ | ⟨_, _, rfl, rfl⟩ <;> simp
    rw [ofDraft_draft_eq_ok_iff hne.1, ofDraft_draft_eq_ok_iff hne.2]
    refine h.choiceOf_iff fun key x y hxy => ?_
    cases hform : Form.ofKey? key with
    | none =>
      rw [hform] at hxy
      exact ofLeaf_edit_iff hxy
    | some form =>
      rw [hform] at hxy
      refine exists_congr fun base => exists_congr fun params => and_congr_right fun hnode =>
        and_congr_left fun _ => ?_
      subst hnode
      exact ofBody_edit_iff hxy fun param hparam _ _ => ih param hparam

end Node

/-- **Argument items** are decoded as before. -/
theorem Argument.ofDraft_edit_iff {pass : Pass} {a b : Json} {item : Argument}
    (h : Json.Edit none a b) : ofDraft pass a.draft = .ok item ↔ ofDraft pass b.draft = .ok item := by
  have hne : (∀ name, a.draft ≠ .text name) ∧ ∀ name, b.draft ≠ .text name := by
    rcases h.shape with ⟨_, _, rfl, rfl⟩ | ⟨_, _, rfl, rfl⟩ <;> simp [Json.draft]
  rw [ofDraft_of_ne_text hne.1, ofDraft_of_ne_text hne.2, Json.asChoice_draft_iff,
    Json.asChoice_draft_iff]
  refine h.choiceOf_iff fun key x y hxy => ?_
  rw [ofContent, ofContent]
  split
  · rename_i hkey
    subst hkey
    simp only [bind_eq_ok_iff, Node.ofDraft_edit_iff hxy]
  · split
    · rename_i hkey
      subst hkey
      simp only [bind_eq_ok_iff, Json.Edit.asUnit_iff hxy]
    · exact Iff.rfl

/-- **Parameters** are decoded as before. -/
theorem Parameter.ofDraft_edit_iff {pass : Pass} {a b : Json} {param : Parameter}
    (h : Json.Edit none a b) :
    ofDraft pass a.draft = .ok param ↔ ofDraft pass b.draft = .ok param := by
  rw [ofDraft, Json.asChoice_draft_iff, Json.asChoice_draft_iff]
  refine h.choiceOf_iff fun key x y hxy => ?_
  rw [ofContent, ofContent]
  split
  · rename_i hkey
    subst hkey
    have hitems (items : List Argument) :
        x.draft.asList (Argument.ofDraft pass) = .ok items ↔
          y.draft.asList (Argument.ofDraft pass) = .ok items := by
      rw [Json.asList_draft_iff, Json.asList_draft_iff]
      exact Json.Edit.arrayOf_iff hxy fun item _ _ _ hitem => Argument.ofDraft_edit_iff hitem
    simp only [bind_eq_ok_iff, hitems]
  · split
    · rename_i hkey
      subst hkey
      simp only [bind_eq_ok_iff, Node.ofDraft_edit_iff hxy]
    · exact Iff.rfl

/-! ### Requests and entries -/

namespace Json

/-- Two rows of members have the same under a key, as far as edits do not matter. -/
def AgreeUnder (key : String) (members others : List (String × Json)) : Prop :=
  ∀ P : Json → Prop, (∀ x y, Edit none x y → (P x ↔ P y)) →
    (Holds key P members ↔ Holds key P others)

section AgreeUnder

variable {key : String} {members others : List (String × Json)}

theorem AgreeUnder.text_iff (h : AgreeUnder key members others) {s : String} :
    under key members = [.text s] ↔ under key others = [.text s] := by
  simpa [Holds] using h (· = .text s) fun _ _ hxy => hxy.eq_text_iff

theorem AgreeUnder.array_iff {α : Type} {R : Json → α → Prop} {values : List α}
    (h : AgreeUnder key members others) (hR : ∀ value x y, Edit none x y → (R x value ↔ R y value)) :
    (∃ items, under key members = [.array items] ∧ List.Forall₂ R items values) ↔
      ∃ items, under key others = [.array items] ∧ List.Forall₂ R items values := by
  have harray {row : List (String × Json)} : Holds key (ArrayOf R values) row ↔
      ∃ items, under key row = [.array items] ∧ List.Forall₂ R items values := by
    constructor
    · rintro ⟨_, hunder, items, rfl, hitems⟩
      exact ⟨items, hunder, hitems⟩
    · rintro ⟨items, hunder, hitems⟩
      exact ⟨_, hunder, items, rfl, hitems⟩
  rw [← harray, ← harray]
  exact h _ fun _ _ hxy => hxy.arrayOf_iff fun value _ => hR value

theorem agreeUnder_of_eq (h : under key members = under key others) :
    AgreeUnder key members others := by
  intro P _
  rw [Holds, Holds, h]

end AgreeUnder

end Json

open Json (AgreeUnder Holds)

section Members

variable {members others : List (String × Json)}

/-- **Requests** are denoted as before, if there is the same under the keys of their fields. -/
theorem Request.denotes_iff_of_agreeUnder {request : Request}
    (h : ∀ key ∈ request.op.fieldKeys, AgreeUnder key members others) :
    request.Denotes members ↔ request.Denotes others := by
  have hnode (node : Node) (x y : Json) (hxy : Json.Edit none x y) :
      node.Spells .stored x.draft ↔ node.Spells .stored y.draft := by
    rw [← Node.ofDraft_eq_ok_iff, ← Node.ofDraft_eq_ok_iff]
    exact Node.ofDraft_edit_iff hxy
  cases request with
  | list name => exact (h "name" (.head _)).text_iff
  | typeOf value | isAny value | isNone value | isString value =>
    exact h "value" (.head _) _ (hnode value)
  | tuple base params =>
    have hparams := h "params" (.tail _ (.head _))
    exact and_congr (h "base" (.head _)).text_iff (hparams.array_iff hnode)
  | callable base params =>
    have hparams := h "params" (.tail _ (.head _))
    refine and_congr (h "base" (.head _)).text_iff (hparams.array_iff fun param x y hxy => ?_)
    rw [← Parameter.ofDraft_eq_ok_iff, ← Parameter.ofDraft_eq_ok_iff]
    exact Parameter.ofDraft_edit_iff hxy

namespace Entry

/-- **One edit of an entry**: one inside it, or a legal member that comes in under a key that is
neither that of the operation nor that of the line, nor that of a field, if the operation is known. -/
inductive Edit : Json → Json → Prop
  | within {a b : Json} : Json.Edit none a b → Edit a b
  | added {key : String} {value : Json} {members : List (String × Json)} :
    key ≠ "op" → key ≠ "line" → value.inRange = true →
    (∀ operation op, under "op" members = [operation] → Op.Denotes operation op →
      key ∉ op.fieldKeys) →
      Edit (.object members) (.object ((key, value) :: members))

theorem Edit.inRange_iff {a b : Json} (h : Edit a b) : a.inRange = true ↔ b.inRange = true := by
  cases h with
  | within hedit => exact hedit.inRange_iff
  | added _ _ hvalue _ => simp only [Json.inRange, Json.membersInRange, hvalue, Bool.true_and]

end Entry

end Members

/-! ### Files -/

namespace RequestFile

/-- **One edit of a file**: one of its items is edited, as an entry. -/
inductive Edit : List Json → List Json → Prop
  | mk {before after : List Json} {a b : Json} : Entry.Edit a b →
    Edit (before ++ a :: after) (before ++ b :: after)

/-- **Files that are rearranged** come from one another by edits, of which each may be made or taken
back. -/
def Rearranged : List Json → List Json → Prop :=
  Relation.EqvGen Edit

theorem Rearranged.inRange_iff {items others : List Json} (h : Rearranged items others) :
    (Json.array items).inRange = true ↔ (Json.array others).inRange = true := by
  induction h with
  | rel _ _ hedit =>
    obtain ⟨hedit⟩ := hedit
    simp only [Json.inRange, Json.allInRange_iff, List.forall_mem_append, List.forall_mem_cons,
      hedit.inRange_iff]
  | refl _ => exact Iff.rfl
  | symm _ _ _ ih => exact ih.symm
  | trans _ _ _ _ _ ih ih' => exact ih.trans ih'

end RequestFile

end TypeExpr
