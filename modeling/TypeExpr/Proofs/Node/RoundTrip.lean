import TypeExpr.Node.Shorthand
import TypeExpr.Proofs.Decode.Node
import TypeExpr.Proofs.Node.Hollows

/-!
# Reading back what was written

Any node has a written form, also one with callables that have no parameters, which no reader
ever returns. This file says what the reader makes of the compact text of an arbitrary node.

Two things can go wrong on the way through such a text, and the one that comes first counts. At
the end of the text of a callable without parameters the callable is refused. At a bracket that
opens too deep the text cannot be read on. So the first of the callables without parameters whose
own text lies before the first bracket that is too deep is the error, and if there is none, the
bracket is.

The proof goes by the number of levels left. With `n` levels the reader sees the node with
everything broken that is beyond them, and every parameter of an applied base is read with three
levels less, whatever its place in the list.
-/

namespace TypeExpr

open Json (Draft Document Token)

namespace Node

/-! ### Reading with so many levels left -/

/-- The first of some callables whose text lies before any bracket that opens beyond `n`
levels. -/
def firstWithin (n : Nat) (hollows : List HollowCallable) : Option HollowCallable :=
  hollows.find? fun hollow => Token.fits n hollow.upTo

/-- **What comes of reading**, with `n` levels left, something with these callables without
parameters and of this nesting: the first of the callables that is within the levels is refused,
and if there is none, the value is read, unless it is nested too deep. -/
def verdict {α : Type} (n : Nat) (hollows : List HollowCallable) (nesting : Nat) (value : α) :
    Except ReadError α :=
  match firstWithin n hollows with
  | some hollow => .error (.noReturnType hollow.base)
  | none => if nesting ≤ n then .ok value else .error .malformed

section Verdict

variable {α : Type} {n nesting : Nat} {hollows : List HollowCallable} {value : α}

theorem verdict_of_some {hollow : HollowCallable} (h : firstWithin n hollows = some hollow) :
    verdict n hollows nesting value = .error (.noReturnType hollow.base) := by
  rw [verdict, h]

theorem verdict_of_le (h : firstWithin n hollows = none) (hn : nesting ≤ n) :
    verdict n hollows nesting value = .ok value := by
  rw [verdict, h]
  exact if_pos hn

theorem verdict_of_lt (h : firstWithin n hollows = none) (hn : n < nesting) :
    verdict n hollows nesting value = .error .malformed := by
  rw [verdict, h]
  exact if_neg (Nat.not_le_of_lt hn)

/-- Tokens in front that take some levels leave the others for the callables. -/
theorem firstWithin_behind {m : Nat} {ts : List Token}
    (h : ∀ us, Token.fits n (ts ++ us) = Token.fits m us) :
    firstWithin n (hollows.map (·.behind ts)) = (firstWithin m hollows).map (·.behind ts) := by
  rw [firstWithin]
  rw [List.find?_map]
  congr 2
  funext hollow
  simp [h]

/-- Behind a bracket that is too deep no callable is within the levels. -/
theorem firstWithin_behind_eq_none {ts : List Token} (h : Token.fits n ts = false) :
    firstWithin n (hollows.map (·.behind ts)) = none := by
  refine List.find?_eq_none.mpr fun hollow hmem hfits => ?_
  obtain ⟨inner, -, rfl⟩ := List.mem_map.mp hmem
  rw [HollowCallable.upTo_behind] at hfits
  rw [Token.fits_of_append hfits] at h
  cases h

theorem firstWithin_append {others : List HollowCallable} :
    firstWithin n (hollows ++ others) = (firstWithin n hollows).or (firstWithin n others) :=
  List.find?_append

end Verdict

theorem fits_param_comma {n : Nat} (param : Node) (us : List Token) :
    Token.fits n (param.toJson.tokens ++ [.comma] ++ us) = true ↔
      param.nesting ≤ n ∧ Token.fits n us = true := by
  rw [List.append_assoc, Json.fits_tokens, nesting_toJson]
  rfl

/-- The parameters of a base are read one after the other, all with the same levels left. -/
theorem ofItems_clipItems {pass : Pass} {n : Nat} {params : List Node}
    (h : ∀ param ∈ params,
      ofDraft pass (param.toJson.clip n) = verdict n param.hollows param.nesting param) :
    ofItems pass (Json.clipItems n (params.map toJson)) =
      verdict n (hollowsOf params) (nestingOfParams params) params := by
  induction params with
  | nil => exact (verdict_of_le rfl (Nat.zero_le n)).symm
  | cons param params ih =>
    have hparams := ih fun param hparam => h param (List.mem_cons_of_mem _ hparam)
    rw [List.map_cons, Json.clipItems, ofItems, h param List.mem_cons_self]
    cases hfirst : firstWithin n param.hollows with
    | some hollow =>
      have hsome : firstWithin n (hollowsOf (param :: params)) = some hollow := by
        rw [hollowsOf, firstWithin_append, hfirst, Option.some_or]
      rw [verdict_of_some hfirst, verdict_of_some hsome]
      rfl
    | none =>
      by_cases hn : param.nesting ≤ n
      · -- the parameter is read, and its text takes no level from those behind it
        have hrest : firstWithin n (hollowsOf (param :: params)) =
            (firstWithin n (hollowsOf params)).map
              (·.behind (param.toJson.tokens ++ [.comma])) := by
          rw [hollowsOf, firstWithin_append, hfirst, Option.none_or]
          refine firstWithin_behind fun us => Bool.eq_iff_iff.mpr ?_
          exact (fits_param_comma param us).trans (and_iff_right hn)
        rw [verdict_of_le hfirst hn, hparams]
        cases hlater : firstWithin n (hollowsOf params) with
        | some hollow =>
          rw [hlater] at hrest
          rw [verdict_of_some hlater, verdict_of_some hrest]
          rfl
        | none =>
          rw [hlater] at hrest
          rcases Nat.lt_or_ge n (nestingOfParams params) with hlt | hle
          · have hmax : n < nestingOfParams (param :: params) := by
              rw [nestingOfParams]
              omega
            rw [verdict_of_lt hlater hlt, verdict_of_lt hrest hmax]
            rfl
          · have hmax : nestingOfParams (param :: params) ≤ n := Nat.max_le.mpr ⟨hn, hle⟩
            rw [verdict_of_le hlater hle, verdict_of_le hrest hmax]
            rfl
      · -- something in the parameter is broken, and what is behind it is out of reach
        have hnone : firstWithin n (hollowsOf (param :: params)) = none := by
          rw [hollowsOf, firstWithin_append, hfirst, Option.none_or]
          refine firstWithin_behind_eq_none (Bool.eq_false_iff.mpr fun hfits => hn ?_)
          rw [← List.append_nil (_ ++ _), fits_param_comma] at hfits
          exact hfits.1
        have hlt := Nat.lt_of_not_le hn
        have hmax : n < nestingOfParams (param :: params) := by
          rw [nestingOfParams]
          omega
        rw [verdict_of_lt hfirst hlt, verdict_of_lt hnone hmax]
        rfl

/-- The body of an applied base takes three levels, and with fewer left no callable in it is
reached. -/
theorem firstWithin_applied_eq_none {n : Nat} (hn : n < 3) (form : Form) (base : String)
    (params : List Node) : firstWithin n (applied form base params).hollows = none := by
  by_cases hne : form = .callable → params ≠ []
  · rw [hollows_applied hne]
    refine firstWithin_behind_eq_none ?_
    obtain rfl | rfl | rfl : n = 0 ∨ n = 1 ∨ n = 2 := by omega
    all_goals rfl
  · obtain ⟨rfl, rfl⟩ : form = .callable ∧ params = [] := by simpa using hne
    rw [hollows_callable]
    obtain rfl | rfl | rfl : n = 0 ∨ n = 1 ∨ n = 2 := by omega
    all_goals rfl

/-- With three levels the callables in the parameters have as many left as the parameters. -/
theorem firstWithin_applied {n : Nat} {form : Form} {base : String} {params : List Node}
    (hne : form = .callable → params ≠ []) :
    firstWithin (n + 3) (applied form base params).hollows =
      (firstWithin n (hollowsOf params)).map (·.behind (opening form base)) := by
  rw [hollows_applied hne]
  exact firstWithin_behind fun us => rfl

/-- What stands under the key of a form is decoded as a body, and then the node is checked. -/
theorem ofDraft_form (pass : Pass) (form : Form) (content : Draft) :
    ofDraft pass (.object [(form.key, content)] true) =
      ofBody pass content >>= fun body => (applied form body.1 body.2).checked := by
  rw [ofDraft, refuses_nil, Form.ofKey?_key]
  cases ofBody pass content <;> rfl

/-- The written body of a node gives its base and its parameters. -/
theorem ofBody_written (pass : Pass) (base : String) (items : List Draft) :
    ofBody pass (.object [("base", .text base), ("params", .array items true)] true) =
      ofItems pass items >>= fun params => .ok (base, params) := by
  rw [ofBody]
  simp only [ofMembers, ofParams]
  cases ofItems pass items <;> rfl

/-- The draft of an applied base that is read with at least three levels left. -/
theorem clip_toJson_applied (n : Nat) (form : Form) (base : String) (params : List Node) :
    (applied form base params).toJson.clip (n + 3) =
      .object [(form.key, .object [("base", .text base),
        ("params", .array (Json.clipItems n (params.map toJson)) true)] true)] true := by
  simp [toJson, Json.clip, Json.clipMembers]

/-- **What comes of reading a node with `n` levels left**, from the draft in which everything beyond
them is broken. -/
theorem ofDraft_clip (pass : Pass) (node : Node) :
    ∀ n, ofDraft pass (node.toJson.clip n) = verdict n node.hollows node.nesting node := by
  induction node with
  | named name =>
    intro n
    cases n with
    | zero => rfl
    | succ n =>
      have hle : (named name).nesting ≤ n + 1 := Nat.succ_le_succ (Nat.zero_le n)
      rw [verdict_of_le rfl hle, Json.clip_of_nesting_le (by rwa [nesting_toJson])]
      exact ofDraft_eq_ok_iff.mpr (.named name)
  | anything => exact fun n => (verdict_of_le rfl (Nat.zero_le n)).symm
  | nothing => exact fun n => (verdict_of_le rfl (Nat.zero_le n)).symm
  | applied form base params ih =>
    intro n
    by_cases hn : n < 3
    · -- the list of the parameters is broken, or something around it
      have hlt : n < (applied form base params).nesting := by
        rw [nesting]
        omega
      rw [verdict_of_lt (firstWithin_applied_eq_none hn form base params) hlt]
      obtain rfl | rfl | rfl : n = 0 ∨ n = 1 ∨ n = 2 := by omega
      · rfl
      all_goals exact ofDraft_form pass form _
    · obtain ⟨n, rfl⟩ := Nat.exists_eq_add_of_le' (Nat.le_of_not_lt hn)
      have hparams : ofItems pass (Json.clipItems n (params.map toJson)) = _ :=
        ofItems_clipItems fun param hparam => ih param hparam n
      rw [clip_toJson_applied, ofDraft_form, ofBody_written, hparams]
      by_cases hne : form = .callable → params ≠ []
      · have hfirst : firstWithin (n + 3) (applied form base params).hollows = _ :=
          firstWithin_applied hne
        cases hinner : firstWithin n (hollowsOf params) with
        | some hollow =>
          rw [hinner] at hfirst
          rw [verdict_of_some hinner, verdict_of_some hfirst]
          rfl
        | none =>
          rw [hinner] at hfirst
          rcases Nat.lt_or_ge n (nestingOfParams params) with hlt | hle
          · have hlt' : n + 3 < (applied form base params).nesting := Nat.add_lt_add_right hlt 3
            rw [verdict_of_lt hinner hlt, verdict_of_lt hfirst hlt']
            rfl
          · have hle' : (applied form base params).nesting ≤ n + 3 := Nat.add_le_add_right hle 3
            rw [verdict_of_le hinner hle, verdict_of_le hfirst hle']
            refine checked_eq_ok_iff.mpr ⟨rfl, fun b heq => ?_⟩
            cases heq
            exact hne rfl rfl
      · -- nothing is wrong in front of the end of a callable without parameters
        obtain ⟨rfl, rfl⟩ : form = .callable ∧ params = [] := by simpa using hne
        have hself : firstWithin (n + 3) (applied .callable base []).hollows =
            some ⟨[], base⟩ := by
          rw [hollows_callable]
          rfl
        have hzero : nestingOfParams [] ≤ n := Nat.zero_le n
        have hnone : firstWithin n (hollowsOf []) = none := rfl
        rw [verdict_of_some hself, verdict_of_le hnone hzero]
        rfl

/-! ### Whole texts -/

/-- What is read of the compact text of a node. -/
theorem read_compact (node : Node) :
    read node.toJson.compact =
      verdict Json.nestingLimit node.hollows node.nesting node := by
  have hinRange := node.inRange_toJson
  rw [read, decodeText, Pass.document, Document.skim_of_says (Json.says_compact _) hinRange,
    decodeDocument, ofDraft_clip]
  cases verdict Json.nestingLimit node.hollows node.nesting node <;> rfl

/-- In a text that is not too deep, the first callable without parameters is the first within the
levels. -/
theorem firstWithin_of_le {n : Nat} {node : Node} (hle : node.nesting ≤ n) :
    firstWithin n node.hollows = node.hollows.head? := by
  cases hhollows : node.hollows with
  | nil => rfl
  | cons hollow rest =>
    have hmem : hollow ∈ node.hollows := hhollows ▸ List.mem_cons_self
    obtain ⟨us, hus⟩ := upTo_prefix_tokens hollow hmem
    have hfits : Token.fits n (node.toJson.tokens ++ []) = true :=
      (Json.fits_tokens _ n []).mpr ⟨by rwa [nesting_toJson], rfl⟩
    rw [List.append_nil, ← hus] at hfits
    exact List.find?_cons_of_pos (Token.fits_of_append hfits)

theorem firstWithin_of_sound {n : Nat} {node : Node} (hsound : node.Sound)
    (hle : node.nesting ≤ n) : firstWithin n node.hollows = none := by
  rw [firstWithin_of_le hle, sound_iff_hollows.mp hsound, List.head?_nil]

/-- **Every sound node that is not nested too deep is read back from its compact text.** -/
theorem read_compact_of_sound {node : Node} (hsound : node.Sound)
    (hle : node.nesting ≤ Json.nestingLimit) : read node.toJson.compact = .ok node := by
  rw [read_compact, verdict_of_le (firstWithin_of_sound hsound hle) hle]

/-- **The draft of the written form of a sound node spells the node.** -/
theorem Sound.spells {node : Node} (h : node.Sound) (pass : Pass) :
    node.Spells pass node.toJson.draft := by
  -- nothing is broken if there are as many levels as the node has
  have hle : node.toJson.nesting ≤ node.nesting := Nat.le_of_eq node.nesting_toJson
  have hnone := firstWithin_of_sound h (Nat.le_refl node.nesting)
  refine ofDraft_eq_ok_iff.mp ?_
  rw [← Json.clip_of_nesting_le hle, ofDraft_clip, verdict_of_le hnone (Nat.le_refl _)]

/-- **What the reader makes of the compact text of any node.** Up to the nesting limit a sound
node is read back, and of any other the leftmost callable without parameters is refused. Beyond
the limit the text is refused: for the leftmost callable without parameters whose own text ends
before the first bracket that is too deep, and, if there is none, for that bracket, since the text
is JSON to its end for a reader with levels enough. -/
theorem read_written (node : Node) :
    (node.nesting ≤ Json.nestingLimit → node.Sound → read node.toJson.compact = .ok node) ∧
    (node.nesting ≤ Json.nestingLimit → ¬node.Sound →
      ∃ hollow, node.hollows.head? = some hollow ∧
        read node.toJson.compact = .error (.noReturnType hollow.base)) ∧
    (Json.nestingLimit < node.nesting → read node.toJson.compact = .error
      (match node.hollows.find? fun hollow => Token.fits Json.nestingLimit hollow.upTo with
        | some hollow => .noReturnType hollow.base
        | none => .malformed)) ∧
    (∀ hollow ∈ node.hollows, hollow.upTo <+: node.toJson.tokens ∧
      (ReadError.noReturnType hollow.base).wording? =
        some ("callable type " ++ hollow.base ++ " has no return type")) ∧
    (node.hollows.Pairwise fun first second => first.upTo.length < second.upTo.length) ∧
    Token.lex node.toJson.compact.toList = node.toJson.tokens ∧
    ∀ n, node.nesting ≤ n →
      (Draft.reader n).read node.toJson.tokens = ⟨node.toJson.draft, some []⟩ := by
  refine ⟨fun hle hsound => read_compact_of_sound hsound hle, fun hle hsound => ?_,
    fun hlt => ?_, fun hollow hmem => ⟨upTo_prefix_tokens hollow hmem, rfl⟩, pairwise_hollows,
    Json.lex_compact node.inRange_toJson, fun n hle => ?_⟩
  · rw [read_compact]
    cases hhead : node.hollows.head? with
    | none => exact absurd (sound_iff_hollows.mpr (List.head?_eq_none_iff.mp hhead)) hsound
    | some hollow =>
      exact ⟨hollow, rfl, verdict_of_some ((firstWithin_of_le hle).trans hhead)⟩
  · rw [read_compact]
    unfold verdict firstWithin
    rw [if_neg (Nat.not_le_of_lt hlt)]
    split <;> rfl
  · rw [← nesting_toJson] at hle
    have hread := Draft.reads hle []
    rwa [List.append_nil] at hread

/-- Where a callable without parameters and a parameter that is nested too deep stand side by side,
the one in front is the error. -/
theorem read_written_side_by_side :
    read (tupleOf "tuple" [anything, nothing]).toJson.compact =
        .ok (tupleOf "tuple" [anything, nothing]) ∧
      read (tupleOf "tuple" [applied .callable "typing.Callable" [],
          Nat.repeat typeOf 43 anything]).toJson.compact =
        .error (.noReturnType "typing.Callable") ∧
      read (tupleOf "tuple" [Nat.repeat typeOf 43 anything,
          applied .callable "typing.Callable" []]).toJson.compact = .error .malformed := by
  refine ⟨(read_written _).1 (by decide) (by decide), ?_, ?_⟩
  · refine ((read_written _).2.2.1 (by decide +kernel)).trans (congrArg Except.error ?_)
    decide +kernel
  · refine ((read_written _).2.2.1 (by decide +kernel)).trans (congrArg Except.error ?_)
    decide +kernel

end Node

end TypeExpr
