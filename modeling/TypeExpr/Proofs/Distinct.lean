import Mathlib.Data.Finset.Card
import TypeExpr.Proofs.Decode.Value
import TypeExpr.Proofs.Entry

/-!
# Values that are told apart

Values are compared as trees and are written as texts, and both tell the same values apart. Whether
a text is accepted by a decoder has no part in this: it holds for callables without parameters as
well, which are written but not read back, and for brackets that are nested too deep to be read.

| what is the same | what is the same then | where |
|---|---|---|
| the compact texts | the rows of tokens | `Json.lex_compact` |
| the rows of tokens | the JSON forms | `Json.tokens_injective` |
| the JSON forms | the values | `Node.toJson_injective`, and for what has nodes in it |

So a set of parameters is as good as a set of texts. Parameters that are put into a set one by one
are new or old there, and the new ones are those whose text has not come before. This is said of
the list of positions in `Parameter.firsts`, and of a hash set under any hash function
(`Parameter.insertAll_eq`), since what is in a hash set is a matter of equality alone.
-/

namespace TypeExpr

/-! ### Written forms -/

/-- **Nodes with the same JSON form are equal.** -/
theorem Node.toJson_injective : Function.Injective Node.toJson := by
  intro m n h
  induction m generalizing n with
  | named name =>
    cases n with
    | named other =>
      obtain rfl : name = other := by simpa [toJson] using h
      rfl
    | applied form => cases form <;> simp [toJson, Form.key] at h
    | anything | nothing => simp [toJson] at h
  | applied form base params ih =>
    cases n with
    | named name => cases form <;> simp [toJson, Form.key] at h
    | applied other base' params' =>
      obtain ⟨hkey, rfl, hparams⟩ : form.key = other.key ∧ base = base' ∧
          params.map toJson = params'.map toJson := by simpa [toJson] using h
      obtain rfl := Form.key_injective hkey
      obtain rfl := Json.map_inj_of_mem (fun param hparam _ h => ih param hparam h) hparams
      rfl
    | anything | nothing => simp [toJson] at h
  | anything => cases n <;> first | rfl | simp [toJson] at h
  | nothing => cases n <;> first | rfl | simp [toJson] at h

/-- **Argument items with the same JSON form are equal.** -/
theorem Argument.toJson_injective : Function.Injective Argument.toJson := by
  intro item other h
  cases item with
  | type node =>
    cases other with
    | type node' =>
      have hnode : node.toJson = node'.toJson := by simpa [toJson] using h
      rw [Node.toJson_injective hnode]
    | ellipsis => simp [toJson] at h
  | ellipsis =>
    cases other with
    | type node' => simp [toJson] at h
    | ellipsis => rfl

/-- **Parameters with the same JSON form are equal.** -/
theorem Parameter.toJson_injective : Function.Injective Parameter.toJson := by
  intro param other h
  cases param with
  | args items =>
    cases other with
    | args items' =>
      have hitems : items.map Argument.toJson = items'.map Argument.toJson := by
        simpa [toJson] using h
      rw [List.map_injective_iff.mpr Argument.toJson_injective hitems]
    | type node' => simp [toJson] at h
  | type node =>
    cases other with
    | args items' => simp [toJson] at h
    | type node' =>
      have hnode : node.toJson = node'.toJson := by simpa [toJson] using h
      rw [Node.toJson_injective hnode]

/-- Values whose JSON forms are different, and without numerals out of range, have different texts. -/
theorem compact_injective_of_form {α : Type} {form : α → Json} (hform : Function.Injective form)
    (hrange : ∀ value, (form value).inRange = true) :
    Function.Injective fun value => (form value).compact :=
  fun _ _ h => hform (Json.compact_injective (hrange _) (hrange _) h)

theorem Node.compact_toJson_injective : Function.Injective fun node : Node => node.toJson.compact :=
  compact_injective_of_form toJson_injective inRange_toJson

theorem Argument.compact_toJson_injective :
    Function.Injective fun item : Argument => item.toJson.compact :=
  compact_injective_of_form toJson_injective inRange_toJson

theorem Parameter.compact_toJson_injective :
    Function.Injective fun param : Parameter => param.toJson.compact :=
  compact_injective_of_form toJson_injective inRange_toJson

namespace Parameter

/-! ### New positions -/

section Firsts

variable {seen others : List Parameter} {index : Nat} {param : Parameter}
  {params before after : List Parameter}

theorem firstsFrom_of_mem (h : param ∈ seen) :
    firstsFrom seen index (param :: params) = firstsFrom seen (index + 1) params := by
  rw [firstsFrom, if_pos h]

theorem firstsFrom_of_notMem (h : param ∉ seen) :
    firstsFrom seen index (param :: params) =
      index :: firstsFrom (param :: seen) (index + 1) params := by
  rw [firstsFrom, if_neg h]

/-- Only what has been seen matters, and not in which order or how often. -/
theorem firstsFrom_congr (h : ∀ param, param ∈ seen ↔ param ∈ others) :
    firstsFrom seen index params = firstsFrom others index params := by
  induction params generalizing seen others index with
  | nil => rfl
  | cons param params ih =>
    by_cases hparam : param ∈ seen
    · rw [firstsFrom_of_mem hparam, firstsFrom_of_mem ((h param).mp hparam), ih h]
    · have hcons (q : Parameter) : q ∈ param :: seen ↔ q ∈ param :: others := by
        rw [List.mem_cons, List.mem_cons, h q]
      rw [firstsFrom_of_notMem hparam, firstsFrom_of_notMem (mt (h param).mpr hparam), ih hcons]

/-- **What comes later is compared with all that came before.** -/
theorem firstsFrom_append :
    firstsFrom seen index (before ++ after) =
      firstsFrom seen index before ++ firstsFrom (before ++ seen) (index + before.length) after := by
  induction before generalizing seen index with
  | nil => rfl
  | cons param before ih =>
    have hlength : index + (param :: before).length = index + 1 + before.length := by
      rw [List.length_cons]
      omega
    rw [List.cons_append, hlength]
    by_cases hparam : param ∈ seen
    · rw [firstsFrom_of_mem hparam, firstsFrom_of_mem hparam, ih]
      refine congrArg _ (firstsFrom_congr fun q => ?_)
      rw [List.cons_append, List.mem_cons, iff_or_self]
      rintro rfl
      exact List.mem_append_right _ hparam
    · rw [firstsFrom_of_notMem hparam, firstsFrom_of_notMem hparam, ih, List.cons_append]
      refine congrArg _ (congrArg _ (firstsFrom_congr fun q => ?_))
      simp only [List.mem_append, List.mem_cons, List.cons_append]
      exact or_left_comm

/-- The positions are counted on from the first one. -/
theorem bounds_of_mem_firstsFrom {i : Nat} (h : i ∈ firstsFrom seen index params) :
    index ≤ i ∧ i < index + params.length := by
  induction params generalizing seen index with
  | nil => cases h
  | cons param params ih =>
    rw [List.length_cons]
    by_cases hparam : param ∈ seen
    · rw [firstsFrom_of_mem hparam] at h
      obtain ⟨hle, hlt⟩ := ih h
      omega
    · rw [firstsFrom_of_notMem hparam, List.mem_cons] at h
      rcases h with rfl | h
      · omega
      · obtain ⟨hle, hlt⟩ := ih h
        omega

theorem pairwise_firstsFrom : (firstsFrom seen index params).Pairwise (· < ·) := by
  induction params generalizing seen index with
  | nil => exact .nil
  | cons param params ih =>
    by_cases hparam : param ∈ seen
    · rw [firstsFrom_of_mem hparam]
      exact ih
    · rw [firstsFrom_of_notMem hparam]
      exact ih.cons fun i hi => (bounds_of_mem_firstsFrom hi).1

/-- **A parameter is new** if it is not among those before it. -/
theorem length_mem_firsts_iff : before.length ∈ firsts (before ++ param :: after) ↔ param ∉ before := by
  rw [firsts, firstsFrom_append, List.append_nil, Nat.zero_add, List.mem_append]
  have hbefore : before.length ∉ firstsFrom [] 0 before := fun h => by
    have hlt := (bounds_of_mem_firstsFrom h).2
    omega
  rw [or_iff_right hbefore]
  by_cases hparam : param ∈ before
  · rw [firstsFrom_of_mem hparam]
    refine iff_of_false (fun h => ?_) (not_not_intro hparam)
    have hle := (bounds_of_mem_firstsFrom h).1
    omega
  · rw [firstsFrom_of_notMem hparam]
    exact iff_of_true List.mem_cons_self hparam

/-- As many are new as there are different ones that have not been seen. -/
theorem length_firstsFrom :
    (firstsFrom seen index params).length = (params.toFinset \ seen.toFinset).card := by
  induction params generalizing seen index with
  | nil => rw [firstsFrom, List.toFinset_nil, Finset.empty_sdiff, Finset.card_empty, List.length_nil]
  | cons param params ih =>
    by_cases hparam : param ∈ seen
    · rw [firstsFrom_of_mem hparam, ih, List.toFinset_cons,
        Finset.insert_sdiff_of_mem _ (List.mem_toFinset.mpr hparam)]
    · rw [firstsFrom_of_notMem hparam, List.length_cons, ih, List.toFinset_cons, List.toFinset_cons,
        Finset.insert_sdiff_of_notMem _ (mt List.mem_toFinset.mp hparam), Finset.sdiff_insert,
        ← Finset.erase_insert_eq_erase, Finset.card_erase_add_one (Finset.mem_insert_self _ _)]

/-- **There are as many new parameters as there are different compact texts.** -/
theorem length_firsts (params : List Parameter) :
    (firsts params).length = (params.map fun param => param.toJson.compact).toFinset.card := by
  have himage : (params.map fun param => param.toJson.compact).toFinset =
      params.toFinset.image fun param => param.toJson.compact := by
    ext text
    simp
  rw [firsts, length_firstsFrom, List.toFinset_nil, Finset.sdiff_empty, himage,
    Finset.card_image_of_injective _ compact_toJson_injective]

end Firsts

/-! ### Hash sets -/

section HashSet

variable [Hashable Parameter]

/-- Puts parameters into a hash set one by one, and notes the positions, counted from `index`, of
those that were not in it. -/
def insertFrom (set : Std.HashSet Parameter) (index : Nat) :
    List Parameter → Std.HashSet Parameter × List Nat
  | [] => (set, [])
  | param :: params =>
    let insertion := set.containsThenInsert param
    let later := insertFrom insertion.2 (index + 1) params
    (later.1, if insertion.1 then later.2 else index :: later.2)

/-- Puts parameters into an empty hash set one by one, and notes the positions of the new ones. -/
def insertAll (params : List Parameter) : Std.HashSet Parameter × List Nat :=
  insertFrom ∅ 0 params

variable {set : Std.HashSet Parameter} {seen : List Parameter} {index : Nat} {param : Parameter}
  {params : List Parameter}

theorem insertFrom_of_mem (h : param ∈ set) :
    insertFrom set index (param :: params) = insertFrom (set.insert param) (index + 1) params := by
  rw [insertFrom, Std.HashSet.containsThenInsert_fst, Std.HashSet.containsThenInsert_snd,
    if_pos (Std.HashSet.mem_iff_contains.mp h)]

theorem insertFrom_of_notMem (h : param ∉ set) :
    insertFrom set index (param :: params) =
      ((insertFrom (set.insert param) (index + 1) params).1,
        index :: (insertFrom (set.insert param) (index + 1) params).2) := by
  rw [insertFrom, Std.HashSet.containsThenInsert_fst, Std.HashSet.containsThenInsert_snd,
    if_neg (mt Std.HashSet.mem_iff_contains.mpr h)]

/-- **A hash set goes by what is in it.** It notes the positions that a list with the same
parameters notes, and it grows by one with each of them. -/
theorem insertFrom_eq (h : ∀ param, param ∈ set ↔ param ∈ seen) :
    (insertFrom set index params).2 = firstsFrom seen index params ∧
      (insertFrom set index params).1.size = set.size + (firstsFrom seen index params).length := by
  induction params generalizing set seen index with
  | nil => exact ⟨rfl, rfl⟩
  | cons param params ih =>
    by_cases hparam : param ∈ set
    · have hinsert (q : Parameter) : q ∈ set.insert param ↔ q ∈ seen := by
        rw [Std.HashSet.mem_insert, beq_iff_eq, ← h q, or_iff_right_of_imp (fun heq => heq ▸ hparam)]
      rw [insertFrom_of_mem hparam, firstsFrom_of_mem ((h param).mp hparam)]
      obtain ⟨hpositions, hsize⟩ := ih hinsert
      rw [Std.HashSet.size_insert, if_pos hparam] at hsize
      exact ⟨hpositions, hsize⟩
    · have hinsert (q : Parameter) : q ∈ set.insert param ↔ q ∈ param :: seen := by
        rw [Std.HashSet.mem_insert, List.mem_cons, beq_iff_eq, eq_comm, h q]
      rw [insertFrom_of_notMem hparam, firstsFrom_of_notMem (mt (h param).mpr hparam)]
      obtain ⟨hpositions, hsize⟩ := ih hinsert
      rw [Std.HashSet.size_insert, if_neg hparam] at hsize
      refine ⟨congrArg _ hpositions, ?_⟩
      rw [hsize, List.length_cons, Nat.add_assoc, Nat.add_comm 1]

/-- The positions that are noted are those of the new parameters, and there are as many parameters
in the set. -/
theorem insertAll_eq (params : List Parameter) :
    (insertAll params).2 = firsts params ∧
      (insertAll params).1.size = (firsts params).length := by
  have hempty (param : Parameter) :
      param ∈ (∅ : Std.HashSet Parameter) ↔ param ∈ ([] : List Parameter) :=
    iff_of_false Std.HashSet.not_mem_empty List.not_mem_nil
  refine ⟨(insertFrom_eq hempty).1, ?_⟩
  rw [insertAll, (insertFrom_eq hempty).2, Std.HashSet.size_empty, Nat.zero_add, firsts]

/-- **Values and their written forms tell the same values apart.** Two nodes, two argument items or
two parameters are equal if and only if their compact texts are. So if parameters are put into a
hash set one by one, under whatever hash function, the set has as many members as there are
different texts, and a parameter is new in it if and only if its text differs from the text of each
one before it. The positions that are noted are those of parameters, in their order. -/
theorem eq_iff_compact_eq :
    (∀ m n : Node, m = n ↔ m.toJson.compact = n.toJson.compact) ∧
    (∀ item other : Argument, item = other ↔ item.toJson.compact = other.toJson.compact) ∧
    (∀ param other : Parameter, param = other ↔ param.toJson.compact = other.toJson.compact) ∧
    (∀ params, (insertAll params).1.size =
      (params.map fun param => param.toJson.compact).toFinset.card) ∧
    (∀ before param after, before.length ∈ (insertAll (before ++ param :: after)).2 ↔
      ∀ earlier ∈ before, earlier.toJson.compact ≠ param.toJson.compact) ∧
    ∀ params, (insertAll params).2 = firsts params ∧ (firsts params).Pairwise (· < ·) ∧
      ∀ i ∈ firsts params, i < params.length := by
  refine ⟨fun m n => Node.compact_toJson_injective.eq_iff.symm,
    fun item other => Argument.compact_toJson_injective.eq_iff.symm,
    fun param other => compact_toJson_injective.eq_iff.symm, fun params => ?_,
    fun before param after => ?_, fun params => ⟨(insertAll_eq params).1, pairwise_firstsFrom, ?_⟩⟩
  · rw [(insertAll_eq params).2, length_firsts]
  · rw [(insertAll_eq _).1, length_mem_firsts_iff]
    constructor
    · rintro hnew earlier hearlier heq
      exact hnew (compact_toJson_injective heq ▸ hearlier)
    · exact fun hnew hparam => hnew param hparam rfl
  · intro i hi
    have hlt := (bounds_of_mem_firstsFrom hi).2
    omega

end HashSet

end Parameter

end TypeExpr
