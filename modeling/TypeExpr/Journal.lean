import TypeExpr.Outcome

/-!
# The journal

Building nodes is pure, but not silent: guesses are put on record, and so is the progress of
a request file. A record says what happened. Its level, the activity it belongs to and its
wording follow from that. A computation that keeps a journal returns the
records beside its value, oldest first.
-/

namespace TypeExpr

/-- How much a record matters. -/
inductive Level where
  | debug
  | trace
  deriving DecidableEq

/-- The name of a level. -/
def Level.text : Level → String
  | debug => "DEBUG"
  | trace => "TRACE"

/-- What was being done when a record was made. -/
inductive Activity where
  /-- A node was being built. -/
  | building
  /-- A request file was being read or evaluated. -/
  | serving
  deriving DecidableEq

/-- Something that happened. -/
inductive Record where
  /-- A callable annotation gave no return type, and the dynamic type was assumed. -/
  | missingReturn (base : String) (args : Parameter)
  /-- A callable annotation left its arguments open. -/
  | unknownArguments (base : String) (args ret : Node)
  /-- A request file was read. -/
  | loaded (count : Nat) (path : String)
  /-- A request of a file was evaluated. Requests are counted from zero. -/
  | evaluated (index : Nat) (outcome : Outcome)
  deriving DecidableEq

namespace Record

/-- The level of a record. -/
def level : Record → Level
  | missingReturn .. | loaded .. => .debug
  | unknownArguments .. | evaluated .. => .trace

/-- What was being done. -/
def activity : Record → Activity
  | missingReturn .. | unknownArguments .. => .building
  | loaded .. | evaluated .. => .serving

/-- The wording of a record. -/
def message : Record → String
  | missingReturn base args =>
    base ++ "[" ++ args.text ++ "] has no return type, assuming Any"
  | unknownArguments base args ret =>
    base ++ "[" ++ args.text ++ ", " ++ ret.text ++ "] has unknown arguments"
  | loaded count path => "Loaded " ++ toString count ++ " request(s) from " ++ path
  | evaluated index outcome => "request " ++ toString index ++ " -> " ++ outcome.text

end Record

/-- A value and the records made on the way to it, oldest first. -/
structure Logged (α : Type) where
  value : α
  records : List Record
  deriving DecidableEq

namespace Logged

variable {α β : Type}

/-- A value reached without a record. -/
def quiet (value : α) : Logged α :=
  ⟨value, []⟩

/-- Changes the value and keeps the records. -/
def map (f : α → β) (x : Logged α) : Logged β :=
  ⟨f x.value, x.records⟩

/-- Puts records in front of those there are. -/
def after (x : Logged α) (records : List Record) : Logged α :=
  ⟨x.value, records ++ x.records⟩

@[simp] theorem value_quiet (value : α) : (quiet value).value = value := rfl

@[simp] theorem records_quiet (value : α) : (quiet value).records = [] := rfl

@[simp] theorem value_map (f : α → β) (x : Logged α) : (x.map f).value = f x.value := rfl

@[simp] theorem records_map (f : α → β) (x : Logged α) : (x.map f).records = x.records := rfl

@[simp]
theorem value_after (x : Logged α) (records : List Record) : (x.after records).value = x.value :=
  rfl

@[simp]
theorem records_after (x : Logged α) (records : List Record) :
    (x.after records).records = records ++ x.records :=
  rfl

end Logged

end TypeExpr
