import TypeExpr.Proofs.Decode.Value

/-!
# The faults of values

A draft may be broken or cut short, and whoever decodes it finds that out in its place. The draft of
a value is neither, so what a decoder finds wrong with it is wrong with its shape, or it is a
callable without a return type. No decoder says of a value that it is no JSON.

Each decoder has this from its steps. A run that never finds a text to be no JSON is called
*unbroken*, and sequences and lists of unbroken steps are unbroken.
-/

namespace TypeExpr

open Json (Draft)

/-- **An unbroken run** does not find that a text is no JSON. -/
def Unbroken {α : Type} (x : Except ReadError α) : Prop :=
  x ≠ .error .malformed

section Steps

variable {α β : Type}

theorem unbroken_ok (a : α) : Unbroken (.ok a) :=
  fun h => by cases h

theorem unbroken_misshapen : Unbroken (.error .misshapen : Except ReadError α) :=
  fun h => by cases h

theorem Unbroken.bind_of_ok {x : Except ReadError α} {f : α → Except ReadError β}
    (hx : Unbroken x) (hf : ∀ a, x = .ok a → Unbroken (f a)) : Unbroken (x >>= f) := by
  cases x with
  | error e =>
    intro h
    obtain rfl := Except.error.inj h
    exact hx rfl
  | ok a => exact hf a rfl

theorem Unbroken.bind {x : Except ReadError α} {f : α → Except ReadError β} (hx : Unbroken x)
    (hf : ∀ a, Unbroken (f a)) : Unbroken (x >>= f) :=
  hx.bind_of_ok fun a _ => hf a

theorem Unbroken.map {x : Except ReadError α} {f : α → β} (hx : Unbroken x) :
    Unbroken (x.map f) := by
  cases x with
  | error e =>
    intro h
    obtain rfl := Except.error.inj h
    exact hx rfl
  | ok a => exact unbroken_ok (f a)

theorem unbroken_mapM {decode : α → Except ReadError β} {items : List α}
    (h : ∀ item ∈ items, Unbroken (decode item)) : Unbroken (items.mapM decode) := by
  induction items with
  | nil => exact unbroken_ok []
  | cons item items ih =>
    obtain ⟨hitem, hitems⟩ := List.forall_mem_cons.mp h
    rw [List.mapM_cons]
    exact hitem.bind fun _ => (ih hitems).bind fun _ => unbroken_ok _

theorem unbroken_finish (more : List α) : Unbroken (finish more true) := by
  rw [finish]
  split
  · exact unbroken_misshapen
  · exact unbroken_ok ()

end Steps

section Shapes

variable {α β : Type} (value : Json)

/-- A value that is not of the kind asked for is misshapen. -/
theorem misfit_draft : value.draft.misfit = .misshapen := by
  cases value <;> rfl

theorem unbroken_asText : Unbroken value.draft.asText := by
  cases value with
  | text s => exact unbroken_ok s
  | _ => exact unbroken_misshapen

theorem unbroken_asUnit (pass : Pass) : Unbroken (value.draft.asUnit pass) := by
  unfold Json.Draft.asUnit
  split
  · exact unbroken_ok ()
  · split
    · exact unbroken_ok ()
    · exact unbroken_misshapen
  · rw [misfit_draft]
    exact unbroken_misshapen

theorem unbroken_asList {decode : Draft → Except ReadError α}
    (h : ∀ item : Json, Unbroken (decode item.draft)) : Unbroken (value.draft.asList decode) := by
  cases value with
  | array items =>
    rw [Json.draft, Json.drafts_eq_map]
    refine Unbroken.bind (unbroken_mapM (List.forall_mem_map.mpr fun item _ => h item)) fun _ => ?_
    exact (unbroken_finish _).bind fun _ => unbroken_ok _
  | _ => exact unbroken_misshapen

theorem unbroken_asChoice {pass : Pass} {decode : String → Draft → Except ReadError α}
    (h : ∀ key (content : Json), Unbroken (decode key content.draft)) :
    Unbroken (value.draft.asChoice pass decode) := by
  cases value with
  | object members =>
    rcases members with _ | ⟨⟨key, content⟩, more⟩
    · exact unbroken_misshapen
    · rw [Json.draft, Json.memberDrafts, Json.Draft.asChoice]
      split
      · exact unbroken_misshapen
      · exact (h key content).bind fun _ => (unbroken_finish _).bind fun _ => unbroken_ok _
  | _ => exact unbroken_misshapen

end Shapes

section Fields

variable {α β : Type} {members : List (String × Json)}

theorem unbroken_decodeField {key : String} {decode : Draft → Except ReadError α}
    (h : ∀ content : Json, Unbroken (decode content.draft)) (found : Option α) :
    Unbroken (decodeField key decode found (Json.memberDrafts members)) := by
  induction members generalizing found with
  | nil => cases found <;> first | exact unbroken_misshapen | exact unbroken_ok _
  | cons member members ih =>
    obtain ⟨k, content⟩ := member
    rw [Json.memberDrafts, decodeField]
    split
    · split
      · exact unbroken_misshapen
      · exact (h content).bind fun value => ih (some value)
    · exact ih found

theorem unbroken_decodeFields {key₁ key₂ : String} {decode₁ : Draft → Except ReadError α}
    {decode₂ : Draft → Except ReadError β} (h₁ : ∀ content : Json, Unbroken (decode₁ content.draft))
    (h₂ : ∀ content : Json, Unbroken (decode₂ content.draft)) (found₁ : Option α)
    (found₂ : Option β) :
    Unbroken (decodeFields key₁ decode₁ key₂ decode₂ found₁ found₂
      (Json.memberDrafts members)) := by
  induction members generalizing found₁ found₂ with
  | nil =>
    cases found₁ <;> cases found₂ <;> first | exact unbroken_misshapen | exact unbroken_ok _
  | cons member members ih =>
    obtain ⟨k, content⟩ := member
    rw [Json.memberDrafts, decodeFields]
    split
    · split
      · exact unbroken_misshapen
      · exact (h₁ content).bind fun value => ih (some value) found₂
    · split
      · split
        · exact unbroken_misshapen
        · exact (h₂ content).bind fun value => ih found₁ (some value)
      · exact ih found₁ found₂

end Fields

/-! ### Nodes and parameters -/

namespace Node

variable (pass : Pass)

theorem unbroken_checked (node : Node) : Unbroken node.checked := by
  unfold checked
  split
  · exact fun h => by cases h
  · exact unbroken_ok _

theorem unbroken_ofLeaf (key : String) (content : Json) :
    Unbroken (ofLeaf pass key content.draft) := by
  rw [ofLeaf]
  split
  · exact (unbroken_asText content).bind fun _ => unbroken_ok _
  · split
    · exact (unbroken_asUnit content pass).bind fun _ => unbroken_ok _
    · exact unbroken_misshapen

theorem unbroken_ofMembers {members : List (String × Json)}
    (h : ∀ member ∈ members, Unbroken (ofParams pass member.2.draft)) (base : Option String)
    (params : Option (List Node)) :
    Unbroken (ofMembers pass base params (Json.memberDrafts members) true) := by
  induction members generalizing base params with
  | nil =>
    cases base <;> cases params <;> first | exact unbroken_misshapen | exact unbroken_ok _
  | cons member members ih =>
    obtain ⟨key, content⟩ := member
    obtain ⟨hcontent, hmembers⟩ := List.forall_mem_cons.mp h
    rw [Json.memberDrafts, ofMembers]
    split
    · split
      · exact unbroken_misshapen
      · exact (unbroken_asText content).bind fun base => ih hmembers (some base) params
    · split
      · split
        · exact unbroken_misshapen
        · exact hcontent.bind fun params => ih hmembers base (some params)
      · exact ih hmembers base params

/-- **No value is found broken** when it is decoded as a node, as a body or as parameters. The three
go through the value together, by induction on it. -/
theorem unbroken_decode (value : Json) : Unbroken (ofDraft pass value.draft) ∧
    Unbroken (ofBody pass value.draft) ∧ Unbroken (ofParams pass value.draft) := by
  induction value with
  | null | bool _ | numeral _ =>
    exact ⟨unbroken_misshapen, unbroken_misshapen, unbroken_misshapen⟩
  | text name =>
    refine ⟨?_, unbroken_misshapen, unbroken_misshapen⟩
    rw [Json.draft, ofDraft]
    split
    · exact unbroken_ok _
    · exact unbroken_misshapen
  | array items ih =>
    refine ⟨unbroken_misshapen, ?_, ?_⟩
    · rcases items with _ | ⟨base, _ | ⟨params, more⟩⟩
      · exact unbroken_misshapen
      · exact (unbroken_asText base).bind fun _ => unbroken_misshapen
      · have hparams := (ih params (List.mem_cons_of_mem _ List.mem_cons_self)).2.2
        exact (unbroken_asText base).bind fun _ => hparams.bind fun _ =>
          (unbroken_finish _).bind fun _ => unbroken_ok _
    · rw [Json.draft, ofParams, ofItems_eq_mapM, Json.drafts_eq_map]
      refine Unbroken.bind (unbroken_mapM (List.forall_mem_map.mpr ?_)) fun _ => ?_
      · exact fun item hitem => (ih item hitem).1
      · exact (unbroken_finish _).bind fun _ => unbroken_ok _
  | object members ih =>
    refine ⟨?_, ?_, unbroken_misshapen⟩
    · rcases members with _ | ⟨⟨key, content⟩, more⟩
      · exact unbroken_misshapen
      · rw [Json.draft, Json.memberDrafts, ofDraft]
        split
        · exact unbroken_misshapen
        · refine Unbroken.bind ?_ fun node => (unbroken_finish _).bind fun _ => unbroken_checked node
          split
          · exact (ih (key, content) List.mem_cons_self).2.1.map
          · exact unbroken_ofLeaf pass key content
    · exact unbroken_ofMembers pass (fun member hmember => (ih member hmember).2.2) none none

theorem unbroken_ofDraft (value : Json) : Unbroken (ofDraft pass value.draft) :=
  (unbroken_decode pass value).1

end Node

theorem Argument.unbroken_ofDraft (pass : Pass) (value : Json) :
    Unbroken (ofDraft pass value.draft) := by
  unfold ofDraft
  split
  · exact unbroken_ok _
  · refine unbroken_asChoice value fun key content => ?_
    rw [ofContent]
    split
    · exact (Node.unbroken_ofDraft pass content).bind fun _ => unbroken_ok _
    · split
      · exact (unbroken_asUnit content pass).bind fun _ => unbroken_ok _
      · exact unbroken_misshapen

theorem Parameter.unbroken_ofDraft (pass : Pass) (value : Json) :
    Unbroken (ofDraft pass value.draft) := by
  refine unbroken_asChoice value fun key content => ?_
  rw [ofContent]
  split
  · exact (unbroken_asList content (Argument.unbroken_ofDraft pass)).bind fun _ => unbroken_ok _
  · split
    · exact (Node.unbroken_ofDraft pass content).bind fun _ => unbroken_ok _
    · exact unbroken_misshapen

/-! ### Requests and entries -/

theorem Op.unbroken_ofDraft (style : OpStyle) (value : Json) :
    Unbroken (ofDraft style value.draft) := by
  unfold ofDraft
  split
  · split
    · exact unbroken_ok _
    · exact unbroken_misshapen
  · split
    · exact unbroken_ok _
    · exact unbroken_misshapen
  · rw [misfit_draft]
    exact unbroken_misshapen

theorem Op.unbroken_decode (op : Op) (members : List (String × Json)) :
    Unbroken (op.decode (.keyed (Json.memberDrafts members))) := by
  have hvalue : Unbroken (Fields.one "value" (Node.ofDraft .stored)
      (.keyed (Json.memberDrafts members))) :=
    unbroken_decodeField (Node.unbroken_ofDraft .stored) none
  cases op with
  | list => exact (unbroken_decodeField unbroken_asText none).map
  | tuple =>
    exact (unbroken_decodeFields unbroken_asText
      (unbroken_asList · (Node.unbroken_ofDraft .stored)) none none).map
  | callable =>
    exact (unbroken_decodeFields unbroken_asText
      (unbroken_asList · (Parameter.unbroken_ofDraft .stored)) none none).map
  | typeOf | isAny | isNone | isString => exact hvalue.map

/-- Leaving out members and taking drafts may change places. -/
theorem filter_memberDrafts (p : String → Bool) (members : List (String × Json)) :
    (Json.memberDrafts members).filter (fun member => p member.1) =
      Json.memberDrafts (members.filter fun member => p member.1) := by
  rw [Json.memberDrafts_eq_map, Json.memberDrafts_eq_map, List.filter_map]
  rfl

theorem Request.unbroken_ofMembers (style : OpStyle) (members : List (String × Json)) :
    Unbroken (ofMembers style (Json.memberDrafts members)) := by
  rw [ofMembers]
  split
  · rename_i key content hop
    have hmem : (key, content) ∈ Json.memberDrafts members :=
      List.mem_of_mem_filter (hop ▸ List.mem_singleton_self _)
    rw [Json.memberDrafts_eq_map] at hmem
    obtain ⟨⟨k, value⟩, -, hvalue⟩ := List.mem_map.mp hmem
    obtain ⟨rfl, rfl⟩ := Prod.mk.inj hvalue
    refine (Op.unbroken_ofDraft style value).bind fun op => ?_
    rw [filter_memberDrafts (· ≠ "op")]
    exact Op.unbroken_decode op _
  · exact unbroken_misshapen

theorem unbroken_lineOfDraft (value : Json) : Unbroken (lineOfDraft value.draft) := by
  unfold lineOfDraft
  split
  · exact unbroken_ok _
  · split
    · split
      · exact unbroken_ok _
      · exact unbroken_misshapen
    · exact unbroken_misshapen
  · rw [misfit_draft]
    exact unbroken_misshapen

namespace Entry

theorem unbroken_takeLine (members : List (String × Json)) (found : Option (Option Nat)) :
    Unbroken (takeLine found (Json.memberDrafts members)) := by
  induction members generalizing found with
  | nil => exact unbroken_ok _
  | cons member members ih =>
    obtain ⟨key, content⟩ := member
    rw [Json.memberDrafts, takeLine]
    split
    · split
      · exact unbroken_misshapen
      · exact (unbroken_lineOfDraft content).bind fun line => ih (some line)
    · rw [if_pos (Json.isWhole_draft content)]
      exact (ih found).bind fun _ => unbroken_ok _

/-- **No value is found broken** when it is decoded as an entry. -/
theorem unbroken_ofDraft (value : Json) : Unbroken (ofDraft value.draft) := by
  cases value with
  | object members =>
    refine (unbroken_takeLine members none).bind_of_ok fun got htake => ?_
    obtain ⟨line, others⟩ := got
    obtain ⟨-, -, rfl⟩ := takeLine_eq_ok_iff.mp htake
    refine Unbroken.bind (unbroken_finish _) fun _ => Unbroken.bind ?_ fun _ => unbroken_ok _
    rw [filter_memberDrafts (· ≠ "line")]
    exact Request.unbroken_ofMembers .byNameOrIndex _
  | _ => exact unbroken_misshapen

end Entry

end TypeExpr
