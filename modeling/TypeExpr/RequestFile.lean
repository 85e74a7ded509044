import TypeExpr.Decode.Request
import TypeExpr.Text.Lines
import TypeExpr.Trouble

/-!
# Request files

A request file is read as a whole before any of its requests is evaluated. Then they are
evaluated in order, up to the first that fails. What the earlier ones gave is dropped: the
file has outcomes for all of its requests, or an error for one.

A failure is put down to its request and to the line that the entry gives, and the text of
that line comes from the file itself.
-/

namespace TypeExpr

/-- A request file that has been read. -/
structure RequestFile where
  path : String
  /-- The lines of its text. -/
  lines : List String
  entries : List Entry

namespace RequestFile

/-- Reads the text of a file as a list of entries. -/
def readEntries (source : String) : Except ReadError (List Entry) :=
  decodeStored (Json.Draft.asList Entry.ofDraft) source

/-- Reads the text of a file. -/
def parse (path source : String) : Logged (Except Trouble RequestFile) :=
  match readEntries source with
  | .ok entries =>
    ⟨.ok ⟨path, Text.lines source, entries⟩, [.loaded entries.length path]⟩
  | .error error =>
    .quiet (.error ((Trouble.ofCause (.read error)).inContext ("Invalid request file " ++ path)))

/-- Reads a file, given what the attempt to get its bytes gave. -/
def load (path : String) (bytes : Except FileError ByteArray) :
    Logged (Except Trouble RequestFile) :=
  let failed (error : FileError) :=
    .quiet (.error ((Trouble.ofCause (.file error)).inContext ("Failed to read " ++ path)))
  match bytes with
  | .ok bytes =>
    match String.fromUTF8? bytes with
    | some source => parse path source
    | none => failed .notText
  | .error error => failed error

/-! ### Evaluation -/

/-- Why a request file has no outcomes. -/
inductive Failure where
  | trouble (trouble : Trouble)
  /-- A callable was asked for without a parameter. -/
  | noParameters
  deriving DecidableEq

/-- The error of the request with this index, counted from zero. -/
def locate (file : RequestFile) (index : Nat) (entry : Entry) (error : CallableError) :
    LocatedError :=
  (error.located file.path entry.line (entry.line.bind (Text.line? file.lines))).forRequest
    (index + 1)

/-- Evaluates entries in order, the first of which has this index. -/
def evaluateFrom (file : RequestFile) :
    Nat → List Entry → Logged (Except Failure (List Outcome))
  | _, [] => .quiet (.ok [])
  | index, entry :: entries =>
    let step := entry.request.evaluate
    match step.value with
    | .ok outcome =>
      ((evaluateFrom file (index + 1) entries).map fun rest => rest.map (outcome :: ·)).after
        (step.records ++ [.evaluated index outcome])
    | .error (.rejected error) =>
      ⟨.error (.trouble (.ofCause (.located (file.locate index entry error)))), step.records⟩
    | .error .noParameters => ⟨.error .noParameters, step.records⟩

/-- **Evaluates all requests of a file.** -/
def evaluate (file : RequestFile) : Logged (Except Failure (List Outcome)) :=
  file.evaluateFrom 0 file.entries

/-- Evaluates all requests of a file, if it could be read. -/
def evaluateLoaded (loaded : Logged (Except Trouble RequestFile)) :
    Logged (Except Failure (List Outcome)) :=
  match loaded.value with
  | .ok file => file.evaluate.after loaded.records
  | .error trouble => ⟨.error (.trouble trouble), loaded.records⟩

end RequestFile

end TypeExpr
