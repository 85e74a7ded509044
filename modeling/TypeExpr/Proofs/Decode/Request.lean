import TypeExpr.RequestFile
import TypeExpr.Proofs.Decode.Parameter

/-!
# The spellings of requests, entries and files

The operation of a request decides which members count, and an entry has a line number among
its members besides. Each of these members must be there exactly once, the line number at most
once, and all others are passed over. In which order the decoder looks at them, and that the
line number is taken out before the operation is known, has no trace in what is accepted:
every condition is on the members of the entry as they stand.
-/

namespace TypeExpr

open Json (Draft Document)

/-! ### Members left out -/

section Others

variable {key other : String} {content : Draft} {members : List (String × Draft)}

/-- Leaving out the members under another key does not change which member stands under
this one. -/
theorem sole_filter_iff (h : key ≠ other) :
    Sole key content (members.filter fun member => member.1 ≠ other) ↔
      Sole key content members := by
  have hfilter : (members.filter fun member => member.1 ≠ other).filter
      (fun member => member.1 = key) = members.filter fun member => member.1 = key := by
    rw [List.filter_filter]
    refine List.filter_congr fun member _ => ?_
    by_cases hkey : member.1 = key <;> simp [hkey, h]
  rw [Sole, hfilter, Sole]

end Others

/-! ### Requests -/

/-- The keys of the fields that a request for an operation has. -/
def Op.fieldKeys : Op → List String
  | list => ["name"]
  | tuple | callable => ["base", "params"]
  | typeOf | isAny | isNone | isString => ["value"]

theorem Op.ofName?_eq_some_iff {name : String} {op : Op} :
    ofName? name = some op ↔ name = op.name := by
  constructor
  · intro h
    have hname := List.find?_some h
    simpa using (of_decide_eq_true hname).symm
  · rintro rfl
    cases op <;> decide

/-- An operation that may be given by its name alone is given by its name. -/
theorem Op.ofDraft_byName_eq_ok_iff {d : Draft} {op : Op} :
    ofDraft .byName d = .ok op ↔ d = .text op.name := by
  unfold ofDraft
  split
  · rename_i name
    simp only [Draft.text.injEq, ← Op.ofName?_eq_some_iff]
    cases Op.ofName? name <;> simp
  · simp
  · rename_i htext _
    constructor
    · intro h
      cases h
    · rintro rfl
      exact absurd rfl (htext _)

theorem Op.notMem_fieldKeys (op : Op) : "op" ∉ op.fieldKeys ∧ "line" ∉ op.fieldKeys := by
  cases op <;> decide

namespace Request

/-- The nodes in a request. -/
def nodes : Request → List Node
  | list _ => []
  | typeOf value | isAny value | isNone value | isString value => [value]
  | tuple _ params => params
  | callable _ params => params.flatMap Parameter.nodes

/-- **The spellings of the fields of a request.** -/
inductive Spells (fields : Fields) : Request → Prop
  | list {name : String} : fields.Has "name" (.text name) → Spells fields (list name)
  | typeOf {content : Draft} {value : Node} : fields.Has "value" content →
    value.Spells .stored content → Spells fields (typeOf value)
  | tuple {base : String} {items : List Draft} {params : List Node} :
    fields.HasBoth "base" (.text base) "params" (.array items true) →
    List.Forall₂ (Node.Spells .stored) items params → Spells fields (tuple base params)
  | callable {base : String} {items : List Draft} {params : List Parameter} :
    fields.HasBoth "base" (.text base) "params" (.array items true) →
    List.Forall₂ (Parameter.Spells .stored) items params → Spells fields (callable base params)
  | isAny {content : Draft} {value : Node} : fields.Has "value" content →
    value.Spells .stored content → Spells fields (isAny value)
  | isNone {content : Draft} {value : Node} : fields.Has "value" content →
    value.Spells .stored content → Spells fields (isNone value)
  | isString {content : Draft} {value : Node} : fields.Has "value" content →
    value.Spells .stored content → Spells fields (isString value)

end Request

section Fields

variable {fields : Fields}

theorem one_value_eq_ok_iff {value : Node} :
    fields.one "value" (Node.ofDraft .stored) = .ok value ↔
      ∃ content, fields.Has "value" content ∧ value.Spells .stored content := by
  simp only [Fields.one_eq_ok_iff, Node.ofDraft_eq_ok_iff]

/-- A base and a list of parameters are decoded if each parameter is. -/
theorem two_params_eq_ok_iff {α : Type} {decode : Draft → Except ReadError α}
    {base : String} {params : List α} :
    fields.two "base" Draft.asText "params" (Draft.asList decode) = .ok (base, params) ↔
      ∃ items, fields.HasBoth "base" (.text base) "params" (.array items true) ∧
        List.Forall₂ (fun item param => decode item = .ok param) items params := by
  simp only [Fields.two_eq_ok_iff (show "base" ≠ "params" by decide), asText_eq_ok_iff,
    asList_eq_ok_iff]
  constructor
  · rintro ⟨_, _, h, rfl, items, rfl, hparams⟩
    exact ⟨items, h, hparams⟩
  · rintro ⟨items, h, hparams⟩
    exact ⟨_, _, h, rfl, items, rfl, hparams⟩

/-- **The fields of a request are decoded for its own operation**, from their spellings. -/
theorem Op.decode_eq_ok_iff {op : Op} {request : Request} :
    op.decode fields = .ok request ↔ request.op = op ∧ request.Spells fields := by
  constructor
  · intro h
    cases op with
    | list =>
      simp only [decode, map_eq_ok_iff, Fields.one_eq_ok_iff, asText_eq_ok_iff] at h
      obtain ⟨name, ⟨_, hname, rfl⟩, rfl⟩ := h
      exact ⟨rfl, .list hname⟩
    | tuple =>
      obtain ⟨⟨base, params⟩, htwo, rfl⟩ := map_eq_ok_iff.mp h
      obtain ⟨items, hfields, hparams⟩ := two_params_eq_ok_iff.mp htwo
      exact ⟨rfl, .tuple hfields (hparams.imp fun _ _ => Node.ofDraft_eq_ok_iff.mp)⟩
    | callable =>
      obtain ⟨⟨base, params⟩, htwo, rfl⟩ := map_eq_ok_iff.mp h
      obtain ⟨items, hfields, hparams⟩ := two_params_eq_ok_iff.mp htwo
      exact ⟨rfl, .callable hfields (hparams.imp fun _ _ => Parameter.ofDraft_eq_ok_iff.mp)⟩
    | typeOf | isAny | isNone | isString =>
      obtain ⟨value, hone, rfl⟩ := map_eq_ok_iff.mp h
      obtain ⟨content, hcontent, hvalue⟩ := one_value_eq_ok_iff.mp hone
      refine ⟨rfl, ?_⟩
      constructor <;> assumption
  · rintro ⟨rfl, h⟩
    cases h with
    | list hname =>
      exact map_eq_ok_iff.mpr ⟨_, Fields.one_eq_ok_iff.mpr ⟨_, hname, rfl⟩, rfl⟩
    | tuple hfields hparams =>
      have hparams := hparams.imp fun _ _ => Node.ofDraft_eq_ok_iff.mpr
      exact map_eq_ok_iff.mpr ⟨_, two_params_eq_ok_iff.mpr ⟨_, hfields, hparams⟩, rfl⟩
    | callable hfields hparams =>
      have hparams := hparams.imp fun _ _ => Parameter.ofDraft_eq_ok_iff.mpr
      exact map_eq_ok_iff.mpr ⟨_, two_params_eq_ok_iff.mpr ⟨_, hfields, hparams⟩, rfl⟩
    | typeOf hcontent hvalue | isAny hcontent hvalue | isNone hcontent hvalue
    | isString hcontent hvalue =>
      exact map_eq_ok_iff.mpr ⟨_, one_value_eq_ok_iff.mpr ⟨_, hcontent, hvalue⟩, rfl⟩

end Fields

namespace Request

/-- **Only the members under the keys of its fields count** for what a request is. -/
theorem Spells.of_sole {members others : List (String × Draft)} {request : Request}
    (h : request.Spells (.keyed members))
    (hkeys : ∀ key ∈ request.op.fieldKeys, ∀ content,
      Sole key content members → Sole key content others) :
    request.Spells (.keyed others) := by
  cases h with
  | list h => exact .list (hkeys _ (.head _) _ h)
  | typeOf h hnode => exact .typeOf (hkeys _ (.head _) _ h) hnode
  | tuple h hnodes =>
    exact .tuple ⟨hkeys _ (.head _) _ h.1, hkeys _ (.tail _ (.head _)) _ h.2⟩ hnodes
  | callable h hnodes =>
    exact .callable ⟨hkeys _ (.head _) _ h.1, hkeys _ (.tail _ (.head _)) _ h.2⟩ hnodes
  | isAny h hnode => exact .isAny (hkeys _ (.head _) _ h) hnode
  | isNone h hnode => exact .isNone (hkeys _ (.head _) _ h) hnode
  | isString h hnode => exact .isString (hkeys _ (.head _) _ h) hnode

/-- The members under a key that is no field are passed over. -/
theorem spells_filter_iff {other : String} {members : List (String × Draft)} {request : Request}
    (h : other ∉ request.op.fieldKeys) :
    request.Spells (.keyed (members.filter fun member => member.1 ≠ other)) ↔
      request.Spells (.keyed members) := by
  have hsole {key : String} (hkey : key ∈ request.op.fieldKeys) {content : Draft} :
      Sole key content (members.filter fun member => member.1 ≠ other) ↔
        Sole key content members :=
    sole_filter_iff fun heq => h (heq ▸ hkey)
  exact ⟨fun hs => hs.of_sole fun key hkey _ => (hsole hkey).mp,
    fun hs => hs.of_sole fun key hkey _ => (hsole hkey).mpr⟩

/-- **A request is decoded from its members** if one of them gives its operation and the others
spell its fields. -/
theorem ofMembers_eq_ok_iff {style : OpStyle} {members : List (String × Draft)}
    {request : Request} :
    ofMembers style members = .ok request ↔
      (∃ content, Sole "op" content members ∧ Op.ofDraft style content = .ok request.op) ∧
        request.Spells (.keyed members) := by
  have hothers : request.Spells (.keyed (members.filter fun member => member.1 ≠ "op")) ↔
      request.Spells (.keyed members) := spells_filter_iff request.op.notMem_fieldKeys.1
  rw [ofMembers]
  constructor
  · intro h
    split at h
    · rename_i key content hop
      obtain ⟨op, hstyle, hdecode⟩ := bind_eq_ok_iff.mp h
      obtain ⟨rfl, hspells⟩ := Op.decode_eq_ok_iff.mp hdecode
      -- the filter keeps the key with the content
      have hkey : key = "op" := by
        have hmem : (key, content) ∈ members.filter fun member => member.1 = "op" := by
          rw [hop]
          exact List.mem_singleton_self _
        simpa using (List.mem_filter.mp hmem).2
      subst hkey
      exact ⟨⟨content, hop, hstyle⟩, hothers.mp hspells⟩
    · cases h
  · rintro ⟨⟨content, hop, hstyle⟩, hspells⟩
    rw [Sole] at hop
    rw [hop]
    exact bind_eq_ok_iff.mpr ⟨_, hstyle, Op.decode_eq_ok_iff.mpr ⟨rfl, hothers.mpr hspells⟩⟩

/-- **The spellings of a request that stands alone**: an object with the name of the operation and
its fields, or an array of the two, read to its end in either case. -/
inductive StandsIn : Draft → Request → Prop
  | keyed {members : List (String × Draft)} {request : Request} :
    Sole "op" (.text request.op.name) members → request.Spells (.keyed members) →
    (∀ member ∈ members, member.2.isWhole = true) → StandsIn (.object members true) request
  | ordered {items : List Draft} {request : Request} : request.Spells (.ordered items) →
    (∀ item ∈ items, item.isWhole = true) →
      StandsIn (.array (.text request.op.name :: items) true) request

/-- **The decoder accepts the spellings of requests, and nothing else.** -/
theorem ofDraft_eq_ok_iff {d : Draft} {request : Request} :
    ofDraft d = .ok request ↔ StandsIn d request := by
  unfold ofDraft
  constructor
  · intro h
    split at h
    · rename_i hwhole
      split at h
      · rename_i members closed
        rw [Draft.isWhole, Bool.and_eq_true, membersWhole_iff] at hwhole
        obtain ⟨rfl, hwhole⟩ := hwhole
        obtain ⟨⟨_, hsole, hop⟩, hspells⟩ := ofMembers_eq_ok_iff.mp h
        obtain rfl := Op.ofDraft_byName_eq_ok_iff.mp hop
        exact .keyed hsole hspells hwhole
      · rename_i name items closed
        rw [Draft.isWhole, Bool.and_eq_true, areWhole_iff] at hwhole
        obtain ⟨rfl, hwhole⟩ := hwhole
        obtain ⟨op, hop, hdecode⟩ := bind_eq_ok_iff.mp h
        obtain ⟨rfl, hspells⟩ := Op.decode_eq_ok_iff.mp hdecode
        obtain ⟨rfl⟩ := Op.ofDraft_byName_eq_ok_iff.mp hop
        exact .ordered hspells fun item hitem => hwhole item (List.mem_cons_of_mem _ hitem)
      · cases h
    · cases h
  · intro h
    cases h with
    | keyed hsole hspells hwhole =>
      rw [if_pos (isWhole_object hwhole)]
      exact ofMembers_eq_ok_iff.mpr ⟨⟨_, hsole, Op.ofDraft_byName_eq_ok_iff.mpr rfl⟩, hspells⟩
    | ordered hspells hwhole =>
      rw [if_pos (isWhole_array (List.forall_mem_cons.mpr ⟨rfl, hwhole⟩))]
      exact bind_eq_ok_iff.mpr
        ⟨_, Op.ofDraft_byName_eq_ok_iff.mpr rfl, Op.decode_eq_ok_iff.mpr ⟨rfl, hspells⟩⟩

theorem StandsIn.isWhole {d : Draft} {request : Request} (h : StandsIn d request) :
    d.isWhole = true := by
  cases h with
  | keyed _ _ hwhole => exact isWhole_object hwhole
  | ordered _ hwhole => exact isWhole_array (List.forall_mem_cons.mpr ⟨rfl, hwhole⟩)

end Request

/-! ### Entries -/

namespace Entry

/-- **The line number that members give**: none, if there is no member for it, and else what
the only one says. -/
inductive HasLine (members : List (String × Draft)) : Option Nat → Prop
  | absent : (∀ member ∈ members, member.1 ≠ "line") → HasLine members none
  | given {content : Draft} {line : Option Nat} : Sole "line" content members →
    lineOfDraft content = .ok line → HasLine members line

/-- What the members before these have left to do for the line number. -/
def LineAwaits (members : List (String × Draft)) (line : Option Nat) :
    Option (Option Nat) → Prop
  | none => HasLine members line
  | some found => found = line ∧ ∀ member ∈ members, member.1 ≠ "line"

section LineAwaits

variable {k : String} {c : Draft} {members : List (String × Draft)} {line : Option Nat}
  {found : Option (Option Nat)}

theorem hasLine_cons_of_ne (h : k ≠ "line") :
    HasLine ((k, c) :: members) line ↔ HasLine members line := by
  constructor
  · rintro (hne | ⟨hsole, hline⟩)
    · exact .absent fun member hmem => hne member (List.mem_cons_of_mem _ hmem)
    · exact .given ((sole_cons_of_ne h).mp hsole) hline
  · rintro (hne | ⟨hsole, hline⟩)
    · exact .absent (List.forall_mem_cons.mpr ⟨h, hne⟩)
    · exact .given ((sole_cons_of_ne h).mpr hsole) hline

theorem hasLine_cons_self :
    HasLine (("line", c) :: members) line ↔
      lineOfDraft c = .ok line ∧ ∀ member ∈ members, member.1 ≠ "line" := by
  constructor
  · rintro (hne | ⟨hsole, hline⟩)
    · exact absurd rfl (hne _ List.mem_cons_self)
    · obtain ⟨rfl, hne⟩ := sole_cons_self.mp hsole
      exact ⟨hline, hne⟩
  · rintro ⟨hline, hne⟩
    exact .given (sole_cons_self.mpr ⟨rfl, hne⟩) hline

theorem lineAwaits_nil : LineAwaits [] line found ↔ found.join = line := by
  cases found with
  | none =>
    constructor
    · rintro (_ | ⟨hsole, -⟩)
      · rfl
      · exact absurd hsole sole_nil
    · rintro rfl
      exact .absent fun _ h => absurd h List.not_mem_nil
  | some l => simp [LineAwaits]

theorem lineAwaits_cons_of_ne (h : k ≠ "line") :
    LineAwaits ((k, c) :: members) line found ↔ LineAwaits members line found := by
  cases found <;> simp [LineAwaits, hasLine_cons_of_ne, h]

theorem lineAwaits_cons_self :
    LineAwaits (("line", c) :: members) line found ↔
      found = none ∧ ∃ first, lineOfDraft c = .ok first ∧
        LineAwaits members line (some first) := by
  cases found with
  | some l => simp [LineAwaits]
  | none =>
    simp only [LineAwaits, hasLine_cons_self, true_and]
    constructor
    · rintro ⟨hline, hne⟩
      exact ⟨line, hline, rfl, hne⟩
    · rintro ⟨_, hline, rfl, hne⟩
      exact ⟨hline, hne⟩

/-- The line number is taken out of the members, and the text of the others is looked at. -/
theorem takeLine_eq_ok_iff {others : List (String × Draft)} :
    takeLine found members = .ok (line, others) ↔
      LineAwaits members line found ∧
      (∀ member ∈ members, member.1 ≠ "line" → member.2.isWhole = true) ∧
      (members.filter fun member => member.1 ≠ "line") = others := by
  induction members generalizing others line found with
  | nil =>
    rw [takeLine, lineAwaits_nil]
    simp
  | cons member members ih =>
    obtain ⟨k, c⟩ := member
    rw [takeLine]
    by_cases hk : k = "line"
    · subst hk
      -- the member is taken out, and there must be no other one
      rw [lineAwaits_cons_self]
      rcases found with _ | l
      · simp only [if_true, Option.isSome_none, Bool.false_eq_true, if_false, bind_eq_ok_iff, ih,
          true_and, List.forall_mem_cons, ne_eq, not_true_eq_false, false_implies,
          decide_not, decide_true, Bool.not_true, List.filter_cons]
        constructor
        · rintro ⟨first, hfirst, h, hrest⟩
          exact ⟨⟨first, hfirst, h⟩, hrest⟩
        · rintro ⟨⟨first, hfirst, h⟩, hrest⟩
          exact ⟨first, hfirst, h, hrest⟩
      · simp
    · rw [if_neg hk, lineAwaits_cons_of_ne hk]
      cases hwhole : c.isWhole
      · simp [hk, hwhole]
      · simp only [if_true, bind_eq_ok_iff, Prod.exists, return_eq_ok_iff, Prod.mk.injEq, ih]
        rw [List.forall_mem_cons, List.filter_cons_of_pos (by simpa using hk)]
        constructor
        · rintro ⟨_, _, ⟨hline, hothers, rfl⟩, rfl, rfl⟩
          exact ⟨hline, ⟨fun _ => hwhole, hothers⟩, rfl⟩
        · rintro ⟨hline, ⟨-, hothers⟩, rfl⟩
          exact ⟨_, _, ⟨hline, hothers, rfl⟩, rfl, rfl⟩

end LineAwaits

/-- **The spellings of an entry**: an object with an operation, its fields, and perhaps a line
number, in any order and among other members. -/
inductive Spells : Draft → Entry → Prop
  | mk {members : List (String × Draft)} {operation : Draft} {entry : Entry} :
    Sole "op" operation members → Op.ofDraft .byNameOrIndex operation = .ok entry.request.op →
    entry.request.Spells (.keyed members) → HasLine members entry.line →
    (∀ member ∈ members, member.1 ≠ "line" → member.2.isWhole = true) →
      Spells (.object members true) entry

/-- **The decoder accepts the spellings of entries, and nothing else.** -/
theorem ofDraft_eq_ok_iff {d : Draft} {entry : Entry} :
    ofDraft d = .ok entry ↔ Spells d entry := by
  have hop {content : Draft} {members : List (String × Draft)} :
      Sole "op" content (members.filter fun member => member.1 ≠ "line") ↔
        Sole "op" content members := sole_filter_iff (by decide)
  have hrequest {members : List (String × Draft)} :
      entry.request.Spells (.keyed (members.filter fun member => member.1 ≠ "line")) ↔
        entry.request.Spells (.keyed members) :=
    Request.spells_filter_iff entry.request.op.notMem_fieldKeys.2
  constructor
  · intro h
    cases d with
    | object members closed =>
      simp only [ofDraft, bind_eq_ok_iff, Prod.exists, return_eq_ok_iff, finish_eq_ok_iff,
        takeLine_eq_ok_iff, Request.ofMembers_eq_ok_iff] at h
      obtain ⟨line, _, ⟨hline, hwhole, rfl⟩, -, ⟨-, rfl⟩, request, ⟨⟨operation, hsole, hstyle⟩,
        hspells⟩, rfl⟩ := h
      exact .mk (hop.mp hsole) hstyle (hrequest.mp hspells) hline hwhole
    | _ => cases h
  · rintro ⟨hsole, hstyle, hspells, hline, hwhole⟩
    simp only [ofDraft, bind_eq_ok_iff, Prod.exists, return_eq_ok_iff, finish_eq_ok_iff,
      takeLine_eq_ok_iff, Request.ofMembers_eq_ok_iff]
    exact ⟨entry.line, _, ⟨hline, hwhole, rfl⟩, (), ⟨trivial, trivial⟩, entry.request,
      ⟨⟨_, hop.mpr hsole, hstyle⟩, hrequest.mpr hspells⟩, rfl⟩

theorem isWhole_of_lineOfDraft {d : Draft} {line : Option Nat} (h : lineOfDraft d = .ok line) :
    d.isWhole = true := by
  cases d with
  | null | numeral n => rfl
  | _ => cases h

/-- The member that gives the line number is whole. -/
theorem HasLine.isWhole {members : List (String × Draft)} {line : Option Nat}
    (h : HasLine members line) {content : Draft} (hmem : ("line", content) ∈ members) :
    content.isWhole = true := by
  cases h with
  | absent hne => exact absurd rfl (hne _ hmem)
  | given hsole hline =>
    rw [hsole.eq_of_mem hmem]
    exact isWhole_of_lineOfDraft hline

theorem Spells.isWhole {d : Draft} {entry : Entry} (h : Spells d entry) : d.isWhole = true := by
  obtain ⟨-, -, -, hline, hothers⟩ := h
  refine isWhole_object fun member hmem => ?_
  obtain ⟨key, content⟩ := member
  by_cases hkey : key = "line"
  · subst hkey
    exact hline.isWhole hmem
  · exact hothers _ hmem hkey

end Entry

/-! ### Files -/

/-- **A file is read** if its text is an array of entries. -/
theorem RequestFile.readEntries_eq_ok_iff {source : String} {entries : List Entry} :
    readEntries source = .ok entries ↔
      ∃ items, Document.read source = ⟨.array items true, true⟩ ∧
        List.Forall₂ Entry.Spells items entries := by
  rw [readEntries, decodeStored, decodeDocument_eq_ok_iff, asList_eq_ok_iff, Pass.document]
  constructor
  · rintro ⟨⟨items, hdraft, hitems⟩, hended⟩
    refine ⟨items, ?_, hitems.imp fun _ _ => Entry.ofDraft_eq_ok_iff.mp⟩
    rw [← hdraft, ← hended]
  · rintro ⟨items, hread, hitems⟩
    rw [hread]
    exact ⟨⟨items, rfl, hitems.imp fun _ _ => Entry.ofDraft_eq_ok_iff.mpr⟩, rfl⟩

/-- A file that has been read is made of its path, its lines and its entries. -/
theorem RequestFile.parse_eq_ok_iff {path source : String} {file : RequestFile} :
    (parse path source).value = .ok file ↔
      file.path = path ∧ file.lines = Text.lines source ∧
        readEntries source = .ok file.entries := by
  rw [parse]
  constructor
  · intro h
    split at h
    · rename_i entries hread
      cases h
      exact ⟨rfl, rfl, hread⟩
    · cases h
  · rintro ⟨rfl, hlines, hread⟩
    rw [hread, ← hlines]

/-- A text with entries is read as the file that has them, under whatever path. -/
theorem RequestFile.parse_of_readEntries {source : String} {entries : List Entry}
    (h : readEntries source = .ok entries) (path : String) :
    (parse path source).value = .ok ⟨path, Text.lines source, entries⟩ :=
  parse_eq_ok_iff.mpr ⟨rfl, rfl, h⟩

end TypeExpr
