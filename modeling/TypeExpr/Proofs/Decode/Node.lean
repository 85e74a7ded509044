import TypeExpr.Decode.Node
import TypeExpr.Proofs.Decode.Basic
import TypeExpr.Proofs.Node.Tree

/-!
# The spellings of a node

A node has one written form and many spellings that are accepted: a special type as its name
or under its name, a body as an object with its members in any order or as an array, unknown
members in an object. `Node.Spells` says by rules which draft spells which node, and the main
fact of this file is that the decoder accepts just these drafts, each with the node it spells.

The pass matters to a spelling in one rule only, the content of a special type given under its
name. The order in which faults are found has no trace in the rules.

What holds of every decoded node is then read off the rules. Such a node is sound, since the
rule for an applied base asks a callable for parameters, and it is nested no deeper than its
draft, since every spelling of a body takes the same three levels.
-/

namespace TypeExpr

open Json (Draft)

theorem Form.ofKey?_eq_some_iff {key : String} {form : Form} :
    ofKey? key = some form ↔ key = form.key := by
  constructor
  · intro h
    unfold ofKey? at h
    split at h <;> cases h <;> rfl
  · rintro rfl
    exact ofKey?_key form

theorem Form.key_injective {form other : Form} (h : form.key = other.key) : form = other :=
  Option.some.inj ((ofKey?_key form).symm.trans (ofKey?_eq_some_iff.mpr h))

namespace Node

/-! ### Bodies -/

/-- **The spellings of a body**: the array of the base and the parameters, or an object with
these two, in any order and among other members. What the others hold does not matter. -/
inductive IsBody (base : String) (params : List Draft) : Draft → Prop
  | ordered : IsBody base params (.array [.text base, .array params true] true)
  | keyed {members : List (String × Draft)} :
    Sole "base" (.text base) members → Sole "params" (.array params true) members →
      IsBody base params (.object members true)

theorem ofItems_eq_mapM (pass : Pass) (items : List Draft) :
    ofItems pass items = items.mapM (ofDraft pass) := by
  induction items with
  | nil => rfl
  | cons item items ih => rw [ofItems, ih, List.mapM_cons]

theorem ofItems_eq_ok_iff {pass : Pass} {items : List Draft} {nodes : List Node} :
    ofItems pass items = .ok nodes ↔
      List.Forall₂ (fun item node => ofDraft pass item = .ok node) items nodes := by
  rw [ofItems_eq_mapM, mapM_eq_ok_iff]

theorem ofParams_eq_ok_iff {pass : Pass} {d : Draft} {nodes : List Node} :
    ofParams pass d = .ok nodes ↔
      ∃ items, d = .array items true ∧ ofItems pass items = .ok nodes := by
  cases d with
  | array items closed =>
    simp only [ofParams, bind_eq_ok_iff, return_eq_ok_iff, finish_eq_ok_iff,
      Draft.array.injEq]
    constructor
    · rintro ⟨_, hnodes, -, ⟨-, rfl⟩, rfl⟩
      exact ⟨items, ⟨rfl, rfl⟩, hnodes⟩
    · rintro ⟨_, ⟨rfl, rfl⟩, hnodes⟩
      exact ⟨nodes, hnodes, (), ⟨trivial, rfl⟩, rfl⟩
  | _ => simp [ofParams]

/-- The members of a body are gone through like those of any record with two fields, except
that the end of the object is looked at as well. -/
theorem ofMembers_eq_ok_iff {pass : Pass} {base : String} {params : List Node}
    {members : List (String × Draft)} {closed : Bool} {foundBase : Option String}
    {foundParams : Option (List Node)} :
    ofMembers pass foundBase foundParams members closed = .ok (base, params) ↔
      Awaits "base" Draft.asText members base foundBase ∧
      Awaits "params" (ofParams pass) members params foundParams ∧ closed = true := by
  induction members generalizing foundBase foundParams with
  | nil =>
    cases closed <;> cases foundBase <;> cases foundParams <;> simp [ofMembers, awaits_nil]
  | cons member members ih =>
    obtain ⟨k, c⟩ := member
    rw [ofMembers]
    by_cases hbase : k = "base"
    · subst hbase
      rw [if_pos rfl, awaits_cons_self, awaits_cons_of_ne (by decide)]
      rcases foundBase with _ | first
      · simp only [Option.isSome_none, Bool.false_eq_true, if_false, bind_eq_ok_iff, ih, true_and]
        constructor
        · rintro ⟨first, hfirst, h, hrest⟩
          exact ⟨⟨first, hfirst, h⟩, hrest⟩
        · rintro ⟨⟨first, hfirst, h⟩, hrest⟩
          exact ⟨first, hfirst, h, hrest⟩
      · simp
    · rw [if_neg hbase, awaits_cons_of_ne hbase]
      by_cases hparams : k = "params"
      · subst hparams
        rw [if_pos rfl, awaits_cons_self]
        rcases foundParams with _ | first
        · simp only [Option.isSome_none, Bool.false_eq_true, if_false, bind_eq_ok_iff, ih,
            true_and]
          constructor
          · rintro ⟨first, hfirst, h, hparams, hrest⟩
            exact ⟨h, ⟨first, hfirst, hparams⟩, hrest⟩
          · rintro ⟨h, ⟨first, hfirst, hparams⟩, hrest⟩
            exact ⟨first, hfirst, h, hparams, hrest⟩
        · simp
      · rw [if_neg hparams, awaits_cons_of_ne hparams, ih]

theorem ofBody_eq_ok_iff {pass : Pass} {d : Draft} {base : String} {params : List Node} :
    ofBody pass d = .ok (base, params) ↔
      ∃ items, IsBody base items d ∧ ofItems pass items = .ok params := by
  constructor
  · intro h
    unfold ofBody at h
    split at h
    · rename_i members closed
      obtain ⟨⟨_, hbase, hname⟩, ⟨content, hparams, hnodes⟩, rfl⟩ :=
        ofMembers_eq_ok_iff.mp h
      obtain rfl := asText_eq_ok_iff.mp hname
      obtain ⟨items, rfl, hitems⟩ := ofParams_eq_ok_iff.mp hnodes
      exact ⟨items, .keyed hbase hparams, hitems⟩
    · rename_i first second more closed
      simp only [bind_eq_ok_iff, return_eq_ok_iff, finish_eq_ok_iff, asText_eq_ok_iff,
        ofParams_eq_ok_iff, Prod.mk.injEq] at h
      obtain ⟨_, rfl, _, ⟨items, rfl, hitems⟩, -, ⟨rfl, rfl⟩, rfl, rfl⟩ := h
      exact ⟨items, .ordered, hitems⟩
    · obtain ⟨_, _, h⟩ := bind_eq_ok_iff.mp h
      cases h
    · cases h
    · cases h
  · rintro ⟨items, hbody, hitems⟩
    cases hbody with
    | ordered =>
      have hparams := ofParams_eq_ok_iff.mpr ⟨items, rfl, hitems⟩
      rw [ofBody, hparams]
      rfl
    | keyed hbase hparams =>
      exact ofMembers_eq_ok_iff.mpr ⟨⟨_, hbase, asText_eq_ok_iff.mpr rfl⟩,
        ⟨_, hparams, ofParams_eq_ok_iff.mpr ⟨items, rfl, hitems⟩⟩, rfl⟩

/-! ### Nodes -/

/-- **The spellings of a node.** -/
inductive Spells (pass : Pass) : Draft → Node → Prop
  /-- A special type, by its name alone. -/
  | name {name : String} {node : Node} : ofName? name = some node → Spells pass (.text name) node
  /-- A special type under its name, without content. -/
  | unit {key : String} {node : Node} {content : Draft} : ofName? key = some node →
    content.asUnit pass = .ok () → Spells pass (.object [(key, content)] true) node
  /-- A type known by its name. -/
  | named (name : String) : Spells pass (.object [("named", .text name)] true) (named name)
  /-- A base applied to parameters, of which a callable has one at least. -/
  | applied {form : Form} {base : String} {params : List Node} {content : Draft}
    {items : List Draft} : IsBody base items content →
    List.Forall₂ (Spells pass) items params → (form = .callable → params ≠ []) →
      Spells pass (.object [(form.key, content)] true) (applied form base params)

theorem ofName?_eq_some_iff {name : String} {node : Node} :
    ofName? name = some node ↔
      name = "anything" ∧ node = anything ∨ name = "nothing" ∧ node = nothing := by
  unfold ofName?
  split <;> simp_all [eq_comm]

/-- The key of a form is the name of no special type. -/
theorem ofName?_key (form : Form) : ofName? form.key = none := by
  cases form <;> rfl

theorem checked_eq_ok_iff {node accepted : Node} :
    node.checked = .ok accepted ↔
      accepted = node ∧ ∀ base, node ≠ .applied .callable base [] := by
  unfold checked
  split
  · simp
  · rename_i hne
    simp only [Except.ok.injEq]
    exact ⟨fun h => ⟨h.symm, hne⟩, fun h => h.1.symm⟩

theorem ofLeaf_eq_ok_iff {pass : Pass} {key : String} {content : Draft} {node : Node} :
    ofLeaf pass key content = .ok node ↔
      (key = "named" ∧ ∃ name, content = .text name ∧ node = named name) ∨
      (ofName? key = some node ∧ content.asUnit pass = .ok ()) := by
  rw [ofLeaf]
  by_cases hkey : key = "named"
  · subst hkey
    have hnone : ofName? "named" ≠ some node := by simp [ofName?]
    simp only [if_true, bind_eq_ok_iff, return_eq_ok_iff, asText_eq_ok_iff, true_and, hnone,
      false_and, or_false]
    exact exists_congr fun name => and_congr_right fun _ => eq_comm
  · rw [if_neg hkey]
    cases hname : ofName? key with
    | none => simp [hkey]
    | some special =>
      simp only [bind_eq_ok_iff, return_eq_ok_iff, hkey, false_and, false_or,
        Option.some.injEq]
      constructor
      · rintro ⟨_, hunit, rfl⟩
        exact ⟨rfl, hunit⟩
      · rintro ⟨rfl, hunit⟩
        exact ⟨(), hunit, rfl⟩

/-- A node given under a key that is no form is no callable. -/
theorem ne_callable_of_ofLeaf {pass : Pass} {key : String} {content : Draft} {node : Node}
    (h : ofLeaf pass key content = .ok node) (base : String) :
    node ≠ applied .callable base [] := by
  rcases ofLeaf_eq_ok_iff.mp h with ⟨-, name, -, rfl⟩ | ⟨hname, -⟩
  · simp
  · rcases ofName?_eq_some_iff.mp hname with ⟨-, rfl⟩ | ⟨-, rfl⟩ <;> simp

/-- **An object is decoded** if it has one key, and under it a leaf or the body of a form. -/
theorem ofDraft_object_eq_ok_iff {pass : Pass} {key : String} {content : Draft}
    {more : List (String × Draft)} {closed : Bool} {node : Node} :
    ofDraft pass (.object ((key, content) :: more) closed) = .ok node ↔
      more = [] ∧ closed = true ∧
      (match Form.ofKey? key with
        | some form => ∃ base params, node = applied form base params ∧
            ofBody pass content = .ok (base, params) ∧ (form = .callable → params ≠ [])
        | none => ofLeaf pass key content = .ok node) := by
  rw [ofDraft]
  by_cases hrefuses : pass.refuses more = true
  · have hmore : more ≠ [] := by
      rintro rfl
      exact absurd hrefuses (by simp)
    simp [hrefuses, hmore]
  · rw [if_neg hrefuses]
    simp only [bind_eq_ok_iff, finish_eq_ok_iff, checked_eq_ok_iff]
    cases Form.ofKey? key with
    | none =>
      constructor
      · rintro ⟨_, hleaf, -, ⟨rfl, rfl⟩, rfl, -⟩
        exact ⟨rfl, rfl, hleaf⟩
      · rintro ⟨rfl, rfl, hleaf⟩
        exact ⟨node, hleaf, (), ⟨rfl, rfl⟩, rfl, ne_callable_of_ofLeaf hleaf⟩
    | some form =>
      simp only [map_eq_ok_iff]
      constructor
      · rintro ⟨_, ⟨⟨base, params⟩, hbody, rfl⟩, -, ⟨rfl, rfl⟩, rfl, hne⟩
        refine ⟨rfl, rfl, base, params, rfl, hbody, ?_⟩
        rintro rfl rfl
        exact hne base rfl
      · rintro ⟨rfl, rfl, base, params, rfl, hbody, hne⟩
        refine ⟨_, ⟨(base, params), hbody, rfl⟩, (), ⟨rfl, rfl⟩, rfl, ?_⟩
        rintro b heq
        cases heq
        exact hne rfl rfl

theorem spells_of_ofLeaf {pass : Pass} {key : String} {content : Draft} {node : Node}
    (h : ofLeaf pass key content = .ok node) :
    Spells pass (.object [(key, content)] true) node := by
  rcases ofLeaf_eq_ok_iff.mp h with ⟨rfl, name, rfl, rfl⟩ | ⟨hname, hunit⟩
  · exact .named name
  · exact .unit hname hunit

/-- A decoded draft spells its node. The induction is on the node: its parameters are what the
items of the draft were decoded to. -/
theorem spells_of_ofDraft {pass : Pass} {d : Draft} {node : Node}
    (h : ofDraft pass d = .ok node) : Spells pass d node := by
  induction node using induct_params generalizing d with
  | step node ih =>
    cases d with
    | text name =>
      rw [ofDraft] at h
      split at h
      · rename_i hname
        cases h
        exact .name hname
      · cases h
    | object members closed =>
      rcases members with _ | ⟨⟨key, content⟩, more⟩
      · cases h
      · obtain ⟨rfl, rfl, hcontent⟩ := ofDraft_object_eq_ok_iff.mp h
        cases hkey : Form.ofKey? key with
        | none =>
          rw [hkey] at hcontent
          exact spells_of_ofLeaf hcontent
        | some form =>
          rw [hkey] at hcontent
          obtain ⟨base, params, rfl, hbody, hne⟩ := hcontent
          obtain ⟨items, hbody, hitems⟩ := ofBody_eq_ok_iff.mp hbody
          obtain rfl := Form.ofKey?_eq_some_iff.mp hkey
          exact .applied hbody (forall₂_imp_of_mem (ofItems_eq_ok_iff.mp hitems)
            fun param hparam item => ih param hparam) hne
    | null | bool _ | numeral _ | array _ _ | broken => cases h

/-- A draft that spells a node is decoded. -/
theorem ofDraft_of_spells {pass : Pass} {d : Draft} {node : Node} (h : Spells pass d node) :
    ofDraft pass d = .ok node := by
  induction node using induct_params generalizing d with
  | step node ih =>
    cases h with
    | name hname => rw [ofDraft, hname]
    | unit hname hunit =>
      refine ofDraft_object_eq_ok_iff.mpr ⟨rfl, rfl, ?_⟩
      rcases ofName?_eq_some_iff.mp hname with ⟨rfl, -⟩ | ⟨rfl, -⟩ <;>
        exact ofLeaf_eq_ok_iff.mpr (Or.inr ⟨hname, hunit⟩)
    | named name =>
      exact ofDraft_object_eq_ok_iff.mpr ⟨rfl, rfl, rfl⟩
    | @applied form base params content items hbody hitems hne =>
      refine ofDraft_object_eq_ok_iff.mpr ⟨rfl, rfl, ?_⟩
      rw [Form.ofKey?_key]
      refine ⟨base, params, rfl, ofBody_eq_ok_iff.mpr ⟨items, hbody, ?_⟩, hne⟩
      exact ofItems_eq_ok_iff.mpr
        (forall₂_imp_of_mem hitems fun param hparam item => ih param hparam)

/-- **The decoder accepts the spellings of nodes, and nothing else.** -/
theorem ofDraft_eq_ok_iff {pass : Pass} {d : Draft} {node : Node} :
    ofDraft pass d = .ok node ↔ Spells pass d node :=
  ⟨spells_of_ofDraft, ofDraft_of_spells⟩

/-! ### What every spelling has -/

/-- **A spelled node is sound.** -/
theorem Spells.sound {pass : Pass} {d : Draft} {node : Node} (h : Spells pass d node) :
    node.Sound := by
  induction node using induct_params generalizing d with
  | step node ih =>
    cases h with
    | name hname | unit hname =>
      rcases ofName?_eq_some_iff.mp hname with ⟨-, rfl⟩ | ⟨-, rfl⟩
      · exact .anything
      · exact .nothing
    | named name => exact .named name
    | applied hbody hitems hne =>
      refine .applied hne fun param hparam => ?_
      obtain ⟨item, -, hitem⟩ := exists_of_mem_forall₂ hitems hparam
      exact ih param hparam hitem

/-- The items of a body are two levels below it. -/
theorem IsBody.nesting_items {base : String} {items : List Draft} {d : Draft}
    (h : IsBody base items d) : Draft.nestingOfItems items + 2 ≤ d.nesting := by
  cases h with
  | ordered => simp [Draft.nesting, Draft.nestingOfItems]
  | keyed _ hparams =>
    have hle := Draft.nesting_le_of_mem_members hparams.mem
    simp only [Draft.nesting] at hle ⊢
    omega

/-- **A spelled node is nested no deeper than its spelling.** -/
theorem Spells.nesting_le {pass : Pass} {d : Draft} {node : Node} (h : Spells pass d node) :
    node.nesting ≤ d.nesting := by
  induction node using induct_params generalizing d with
  | step node ih =>
    cases h with
    | name hname | unit hname =>
      rcases ofName?_eq_some_iff.mp hname with ⟨-, rfl⟩ | ⟨-, rfl⟩ <;> exact Nat.zero_le _
    | named name => exact Nat.le_refl 1
    | @applied form base params content items hbody hitems hne =>
      have hbody := hbody.nesting_items
      have hparams : nestingOfParams params ≤ Draft.nestingOfItems items := by
        refine nestingOfParams_le_iff.mpr fun param hparam => ?_
        obtain ⟨item, hmem, hitem⟩ := exists_of_mem_forall₂ hitems hparam
        exact Nat.le_trans (ih param hparam hitem) (Draft.nesting_le_of_mem_items hmem)
      simp only [nesting, Draft.nesting, Draft.nestingOfMembers]
      omega

end Node

end TypeExpr
