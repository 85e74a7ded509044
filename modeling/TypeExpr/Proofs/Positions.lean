import TypeExpr.Proofs.Decode.Request

/-!
# Decoded positions

A text can be read as a value of six kinds, and the decoder of one kind hands parts of what it
was given to the decoders of others: an entry the fields of its operation, an array its items, a
body its parameters. `Kind.Inside` lists these steps. It asks for as little of the text around
the part as it takes to say where the part stands, so there are positions in texts that nobody
accepts, for whatever reason.

What is in no such position is skipped. It may look like a node and hold any mistake.

Acceptance descends: whatever accepts a draft has accepted the parts in its positions. So a
callable without parameters, which is no spelling of a node, spoils every text that has it in a
position, at any depth (`Kind.HasHollow.not_accepts`).
-/

namespace TypeExpr

open Json (Draft Document)

/-! ### Readers -/

/-- What a text can be read as. -/
inductive Kind where
  | node
  | argument
  | parameter
  | request
  | entry
  | file

namespace Kind

/-- The reader of a kind accepts a text. A file is read under some path. -/
def Reads : Kind → String → Prop
  | node, source => ∃ node, Node.read source = .ok node
  | argument, source => ∃ item, Argument.read source = .ok item
  | parameter, source => ∃ param, Parameter.read source = .ok param
  | request, source => ∃ request, Request.read source = .ok request
  | entry, source => ∃ entry, Entry.read source = .ok entry
  | file, source => ∃ path file, (RequestFile.parse path source).value = .ok file

/-- A draft spells something of a kind, on one of the passes. -/
def Accepts : Kind → Draft → Prop
  | node, d => ∃ pass node, Node.Spells pass d node
  | argument, d => ∃ pass item, Argument.Spells pass d item
  | parameter, d => ∃ pass param, Parameter.Spells pass d param
  | request, d => ∃ request, Request.StandsIn d request
  | entry, d => ∃ entry, Entry.Spells d entry
  | file, d => ∃ items entries, d = .array items true ∧ List.Forall₂ Entry.Spells items entries

/-- How a text of a kind reaches its decoder. -/
def pass : Kind → Pass
  | node | argument | parameter => .streamed
  | request | entry | file => .stored

/-- What a text is to the reader of a kind. -/
def document (kind : Kind) (source : String) : Document :=
  kind.pass.document source

/-- What a decoder accepts of a whole text it accepts of the draft, and nothing follows. -/
theorem exists_of_decodeDocument {α : Type} {decode : Draft → Except ReadError α}
    {document : Document} {spells : Draft → α → Prop}
    (hspells : ∀ {d value}, decode d = .ok value ↔ spells d value)
    (h : ∃ value, decodeDocument decode document = .ok value) :
    (∃ value, spells document.draft value) ∧ document.ended = true := by
  obtain ⟨value, hvalue⟩ := h
  obtain ⟨hvalue, hended⟩ := decodeDocument_eq_ok_iff.mp hvalue
  exact ⟨⟨value, hspells.mp hvalue⟩, hended⟩

/-- **What is read from a text is spelled by its draft**, and nothing follows it. -/
theorem Reads.accepts {kind : Kind} {source : String} (h : kind.Reads source) :
    kind.Accepts (kind.document source).draft ∧ (kind.document source).ended = true := by
  cases kind with
  | node => exact (exists_of_decodeDocument Node.ofDraft_eq_ok_iff h).imp_left fun h => ⟨_, h⟩
  | argument =>
    exact (exists_of_decodeDocument Argument.ofDraft_eq_ok_iff h).imp_left fun h => ⟨_, h⟩
  | parameter =>
    exact (exists_of_decodeDocument Parameter.ofDraft_eq_ok_iff h).imp_left fun h => ⟨_, h⟩
  | request => exact exists_of_decodeDocument Request.ofDraft_eq_ok_iff h
  | entry => exact exists_of_decodeDocument Entry.ofDraft_eq_ok_iff h
  | file =>
    obtain ⟨path, file, hfile⟩ := h
    obtain ⟨-, -, hentries⟩ := RequestFile.parse_eq_ok_iff.mp hfile
    obtain ⟨items, hread, hitems⟩ := RequestFile.readEntries_eq_ok_iff.mp hentries
    rw [document, pass, Pass.document, hread]
    exact ⟨⟨items, file.entries, rfl, hitems⟩, rfl⟩

/-- What is accepted of a stored text is that of a text that is JSON to its end. -/
theorem Accepts.isWhole {kind : Kind} {d : Draft} (h : kind.Accepts d)
    (hpass : kind.pass = .stored) : d.isWhole = true := by
  cases kind with
  | node | argument | parameter => cases hpass
  | request =>
    obtain ⟨_, hrequest⟩ := h
    exact hrequest.isWhole
  | entry =>
    obtain ⟨_, hentry⟩ := h
    exact hentry.isWhole
  | file =>
    obtain ⟨items, entries, rfl, hitems⟩ := h
    exact isWhole_array_of_forall₂ hitems fun _ _ _ hentry => hentry.isWhole

end Kind

/-! ### Positions -/

/-- The parameters that a body gives, whatever else it holds. -/
inductive Node.GivesParams : Draft → List Draft → Prop
  | ordered {base : Draft} {items more : List Draft} {closed whole : Bool} :
    GivesParams (.array (base :: .array items closed :: more) whole) items
  | keyed {members : List (String × Draft)} {items : List Draft} {closed whole : Bool} :
    ("params", .array items closed) ∈ members → GivesParams (.object members whole) items

/-- The content that stands for a field of an operation. -/
def Op.Gives (op : Op) : Fields → String → Draft → Prop
  | .keyed members, key, content => key ∈ op.fieldKeys ∧ (key, content) ∈ members
  | .ordered items, key, content => (key, content) ∈ op.fieldKeys.zip items

namespace Kind

/-- The operation that a request asks for, alone or in an entry, and the fields it comes with. -/
inductive Asks : Kind → Draft → Op → Fields → Prop
  | keyed {members : List (String × Draft)} {op : Op} {whole : Bool} :
    ("op", .text op.name) ∈ members → Asks request (.object members whole) op (.keyed members)
  | ordered {items : List Draft} {op : Op} {whole : Bool} :
    Asks request (.array (.text op.name :: items) whole) op (.ordered items)
  | entry {members : List (String × Draft)} {content : Draft} {op : Op} {whole : Bool} :
    ("op", content) ∈ members → Op.ofDraft .byNameOrIndex content = .ok op →
      Asks entry (.object members whole) op (.keyed members)

/-- **A part of a draft is in a decoded position**: the decoder of one kind hands it to that of
another. -/
inductive Inside : Kind → Draft → Kind → Draft → Prop
  | param {form : Form} {body item : Draft} {members : List (String × Draft)}
    {items : List Draft} {whole : Bool} : (form.key, body) ∈ members →
      Node.GivesParams body items → item ∈ items → Inside node (.object members whole) node item
  | argument {content : Draft} {members : List (String × Draft)} {whole : Bool} :
    ("type", content) ∈ members → Inside argument (.object members whole) node content
  | item {item : Draft} {members : List (String × Draft)} {items : List Draft}
    {closed whole : Bool} : ("args", .array items closed) ∈ members → item ∈ items →
      Inside parameter (.object members whole) argument item
  | parameter {content : Draft} {members : List (String × Draft)} {whole : Bool} :
    ("type", content) ∈ members → Inside parameter (.object members whole) node content
  | value {kind : Kind} {d content : Draft} {op : Op} {fields : Fields} :
    Asks kind d op fields → op.Gives fields "value" content → Inside kind d node content
  | tuple {kind : Kind} {d item : Draft} {fields : Fields} {items : List Draft} {closed : Bool} :
    Asks kind d .tuple fields → Op.tuple.Gives fields "params" (.array items closed) →
      item ∈ items → Inside kind d node item
  | callable {kind : Kind} {d item : Draft} {fields : Fields} {items : List Draft}
    {closed : Bool} : Asks kind d .callable fields →
      Op.callable.Gives fields "params" (.array items closed) → item ∈ items →
        Inside kind d parameter item
  | entry {item : Draft} {items : List Draft} {whole : Bool} : item ∈ items →
    Inside file (.array items whole) entry item

end Kind

/-! ### Acceptance descends -/

/-- A choice has one member. -/
theorem eq_of_mem_choice {key k : String} {content c : Draft} (h : (key, content) ∈ [(k, c)]) :
    key = k ∧ content = c :=
  Prod.mk.inj (List.mem_singleton.mp h)

theorem Node.IsBody.items_eq {base : String} {items given : List Draft} {d : Draft}
    (h : IsBody base items d) (hgiven : GivesParams d given) : given = items := by
  cases h with
  | ordered =>
    cases hgiven
    rfl
  | keyed _ hparams =>
    obtain _ | hmem := hgiven
    exact (Draft.array.inj (hparams.eq_of_mem hmem)).1

namespace Op

theorem name_injective {op other : Op} (h : op.name = other.name) : op = other :=
  Option.some.inj ((ofName?_eq_some_iff.mpr rfl).symm.trans (ofName?_eq_some_iff.mpr h))

section Gives

variable {op : Op} {fields : Fields} {key : String} {content : Draft}

theorem Gives.mem_fieldKeys (h : op.Gives fields key content) : key ∈ op.fieldKeys := by
  cases fields with
  | keyed members => exact h.1
  | ordered items => exact (List.of_mem_zip h).1

/-- What is given for the one field of an operation is its content. -/
theorem Gives.eq_of_has (h : op.Gives fields key content) (hkeys : op.fieldKeys = [key])
    {c : Draft} (hhas : fields.Has key c) : content = c := by
  cases fields with
  | keyed members => exact hhas.eq_of_mem h.2
  | ordered items =>
    have hmem : (key, content) ∈ [key].zip [c] := by
      rw [← hkeys, ← show items = [c] from hhas]
      exact h
    exact (Prod.mk.inj (List.mem_singleton.mp hmem)).2

/-- What is given for the second of two fields is its content. -/
theorem Gives.eq_of_hasBoth (h : op.Gives fields key content) {first : String}
    (hkeys : op.fieldKeys = [first, key]) (hne : key ≠ first) {c₁ c₂ : Draft}
    (hboth : fields.HasBoth first c₁ key c₂) : content = c₂ := by
  cases fields with
  | keyed members => exact hboth.2.eq_of_mem h.2
  | ordered items =>
    have hmem : (key, content) ∈ [first, key].zip [c₁, c₂] := by
      rw [← hkeys, ← show items = [c₁, c₂] from hboth]
      exact h
    rcases List.mem_cons.mp hmem with heq | hmem
    · exact absurd (Prod.mk.inj heq).1 hne
    · exact (Prod.mk.inj (List.mem_singleton.mp hmem)).2

end Gives

end Op

namespace Request

variable {fields : Fields} {request : Request}

/-- The content given for the field `value` spells a node. -/
theorem Spells.value (h : request.Spells fields) {content : Draft}
    (hgives : request.op.Gives fields "value" content) :
    ∃ value, Node.Spells .stored content value := by
  cases h with
  | list | tuple | callable => exact absurd hgives.mem_fieldKeys (by simp [op, Op.fieldKeys])
  | typeOf hhas hvalue | isAny hhas hvalue | isNone hhas hvalue | isString hhas hvalue =>
    obtain rfl := hgives.eq_of_has rfl hhas
    exact ⟨_, hvalue⟩

/-- The items given for the parameters of a tuple spell nodes. -/
theorem Spells.tuple_param (h : request.Spells fields) (hop : request.op = .tuple)
    {items : List Draft} {closed : Bool}
    (hgives : Op.tuple.Gives fields "params" (.array items closed)) {item : Draft}
    (hitem : item ∈ items) : ∃ param, Node.Spells .stored item param := by
  cases h with
  | tuple hboth hparams =>
    have hitems := (Draft.array.inj (hgives.eq_of_hasBoth rfl (by decide) hboth)).1
    subst hitems
    obtain ⟨param, -, hparam⟩ := exists_of_mem_forall₂ hparams.flip hitem
    exact ⟨param, hparam⟩
  | _ => cases hop

/-- The items given for the parameters of a callable spell parameters. -/
theorem Spells.callable_param (h : request.Spells fields) (hop : request.op = .callable)
    {items : List Draft} {closed : Bool}
    (hgives : Op.callable.Gives fields "params" (.array items closed)) {item : Draft}
    (hitem : item ∈ items) : ∃ param, Parameter.Spells .stored item param := by
  cases h with
  | callable hboth hparams =>
    have hitems := (Draft.array.inj (hgives.eq_of_hasBoth rfl (by decide) hboth)).1
    subst hitems
    obtain ⟨param, -, hparam⟩ := exists_of_mem_forall₂ hparams.flip hitem
    exact ⟨param, hparam⟩
  | _ => cases hop

end Request

namespace Kind

/-- A request that is accepted is one for the operation that it asks for. -/
theorem Asks.exists_spells {kind : Kind} {d : Draft} {op : Op} {fields : Fields}
    (h : Asks kind d op fields) (haccepts : kind.Accepts d) :
    ∃ request : Request, request.op = op ∧ request.Spells fields := by
  cases h with
  | keyed hop =>
    obtain ⟨request, hsole, hspells, -⟩ := haccepts
    have hname := hsole.eq_of_mem hop
    exact ⟨request, (Op.name_injective (Draft.text.inj hname)).symm, hspells⟩
  | ordered =>
    obtain ⟨request, hstands⟩ := haccepts
    -- an array stands for a request in one way only
    generalize hd : Draft.array (.text op.name :: _) _ = d at hstands
    cases hstands with
    | keyed => cases hd
    | ordered hspells _ =>
      obtain ⟨hcons, -⟩ := Draft.array.inj hd
      obtain ⟨hname, rfl⟩ := List.cons.inj hcons
      exact ⟨request, (Op.name_injective (Draft.text.inj hname)).symm, hspells⟩
  | entry hmem hop =>
    obtain ⟨e, hsole, hstyle, hspells, -, -⟩ := haccepts
    obtain rfl := hsole.eq_of_mem hmem
    exact ⟨e.request, Except.ok.inj (hstyle.symm.trans hop), hspells⟩

/-- **Acceptance descends** to the parts in decoded positions. -/
theorem Inside.accepts {kind part : Kind} {d content : Draft} (h : Inside kind d part content)
    (haccepts : kind.Accepts d) : part.Accepts content := by
  cases h with
  | @param form body _ members items whole hbody hgives hitem =>
    obtain ⟨pass, node, hnode⟩ := haccepts
    cases hnode with
    | unit hname _ =>
      obtain ⟨hkey, -⟩ := eq_of_mem_choice hbody
      rw [← hkey, Node.ofName?_key] at hname
      cases hname
    | named name =>
      obtain ⟨hkey, -⟩ := eq_of_mem_choice hbody
      exact absurd hkey (by cases form <;> decide)
    | applied hisBody hparams _ =>
      obtain ⟨-, rfl⟩ := eq_of_mem_choice hbody
      obtain rfl := hisBody.items_eq hgives
      obtain ⟨param, -, hparam⟩ := exists_of_mem_forall₂ hparams.flip hitem
      exact ⟨pass, param, hparam⟩
  | argument hmem =>
    obtain ⟨pass, item, hitem⟩ := haccepts
    cases hitem with
    | unit _ => exact absurd (eq_of_mem_choice hmem).1 (by decide)
    | type hnode =>
      obtain ⟨-, rfl⟩ := eq_of_mem_choice hmem
      exact ⟨pass, _, hnode⟩
  | item hmem hitem =>
    obtain ⟨pass, param, hparam⟩ := haccepts
    cases hparam with
    | args hitems =>
      obtain ⟨-, heq⟩ := eq_of_mem_choice hmem
      obtain ⟨rfl, -⟩ := Draft.array.inj heq
      obtain ⟨value, -, hvalue⟩ := exists_of_mem_forall₂ hitems.flip hitem
      exact ⟨pass, value, hvalue⟩
    | type _ => exact absurd (eq_of_mem_choice hmem).1 (by decide)
  | parameter hmem =>
    obtain ⟨pass, param, hparam⟩ := haccepts
    cases hparam with
    | args _ => exact absurd (eq_of_mem_choice hmem).1 (by decide)
    | type hnode =>
      obtain ⟨-, rfl⟩ := eq_of_mem_choice hmem
      exact ⟨pass, _, hnode⟩
  | value hasks hgives =>
    obtain ⟨request, rfl, hspells⟩ := hasks.exists_spells haccepts
    obtain ⟨value, hvalue⟩ := hspells.value hgives
    exact ⟨_, value, hvalue⟩
  | tuple hasks hgives hitem =>
    obtain ⟨request, hop, hspells⟩ := hasks.exists_spells haccepts
    obtain ⟨param, hparam⟩ := hspells.tuple_param hop hgives hitem
    exact ⟨_, param, hparam⟩
  | callable hasks hgives hitem =>
    obtain ⟨request, hop, hspells⟩ := hasks.exists_spells haccepts
    obtain ⟨param, hparam⟩ := hspells.callable_param hop hgives hitem
    exact ⟨_, param, hparam⟩
  | entry hitem =>
    obtain ⟨items, entries, heq, hentries⟩ := haccepts
    obtain ⟨rfl, -⟩ := Draft.array.inj heq
    obtain ⟨entry, -, hentry⟩ := exists_of_mem_forall₂ hentries.flip hitem
    exact ⟨entry, hentry⟩

end Kind

/-! ### Callables without parameters -/

/-- **A hollow callable**: an object that has the key of a callable, and under it a body with an
empty list of parameters. -/
inductive Node.Hollow : Draft → Prop
  | mk {body : Draft} {members : List (String × Draft)} {whole : Bool} :
    (Form.callable.key, body) ∈ members → GivesParams body [] → Hollow (.object members whole)

/-- A hollow callable spells nothing. -/
theorem Node.Hollow.not_accepts {d : Draft} (h : Hollow d) : ¬Kind.node.Accepts d := by
  obtain ⟨hbody, hgives⟩ := h
  rintro ⟨pass, node, hnode⟩
  cases hnode with
  | unit hname _ =>
    obtain ⟨hkey, -⟩ := eq_of_mem_choice hbody
    rw [← hkey, ofName?_key] at hname
    cases hname
  | named name => exact absurd (eq_of_mem_choice hbody).1 (by decide)
  | applied hisBody hparams hne =>
    obtain ⟨hkey, rfl⟩ := eq_of_mem_choice hbody
    obtain rfl := hisBody.items_eq hgives
    exact hne (Form.key_injective hkey.symm) (List.forall₂_nil_left_iff.mp hparams)

/-- **A draft has a hollow callable in a decoded position**, at any depth. -/
inductive Kind.HasHollow : Kind → Draft → Prop
  | here {d : Draft} : Node.Hollow d → HasHollow node d
  | inside {kind part : Kind} {d content : Draft} : Inside kind d part content →
    HasHollow part content → HasHollow kind d

/-- **A draft with a hollow callable is not accepted.** -/
theorem Kind.HasHollow.not_accepts {kind : Kind} {d : Draft} (h : kind.HasHollow d) :
    ¬kind.Accepts d := by
  induction h with
  | here hhollow => exact hhollow.not_accepts
  | inside hinside _ ih => exact fun haccepts => ih (hinside.accepts haccepts)

end TypeExpr
