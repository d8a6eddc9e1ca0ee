import RelaxNg.Attempt

/-!
# Reports

Validation issues its diagnostics to a receiver, which may store a diagnostic and may put an end to validation by
answering an error. `Reports` keeps every diagnostic that was issued, in order, and remembers whether one of them makes
the document invalid. The receiver sees the diagnostics issued before, so that any pattern of answers is a receiver.
-/

namespace RelaxNg

structure Receiver where
  keeps : Diagnostic → Bool
  /-- The answer to a diagnostic after the earlier ones; an error ends validation. -/
  answer : Array Diagnostic → Diagnostic → Except Error Unit

namespace Receiver

/-- The receiver that stores nothing and accepts everything. -/
def silent : Receiver := ⟨fun _ => false, fun _ _ => .ok ()⟩

/-- The receiver that stores everything and ends validation at a fatal error. -/
def collecting : Receiver :=
  ⟨fun _ => true, fun _ d => if d.severity = .fatal then .error (.aborted d) else .ok ()⟩

/-- The receiver that stores errors and ends validation at a fatal error, which it does not store. -/
def errorsOnly : Receiver :=
  ⟨fun d => d.severity = .error, fun _ d => if d.severity = .fatal then .error (.aborted d) else .ok ()⟩

/-- The receiver that ends validation at the first error; it stores warnings and errors that are not fatal. -/
def strict : Receiver :=
  ⟨fun d => d.severity ≠ .fatal, fun _ d => if d.isError then .error (.aborted d) else .ok ()⟩

end Receiver

structure Reports where
  receiver : Receiver
  /-- Whether an error was issued since the last reset. -/
  hadError : Bool := false
  issued : Array Diagnostic := #[]

namespace Reports

def new (receiver : Receiver) : Reports := { receiver }

def kept (reports : Reports) : Array Diagnostic := reports.issued.filter reports.receiver.keeps

def errors (reports : Reports) : Array Diagnostic := reports.kept.filter Diagnostic.isError

def warnings (reports : Reports) : Array Diagnostic := reports.kept.filter fun d => d.severity = .warning

def push (reports : Reports) (d : Diagnostic) : Reports :=
  { reports with hadError := reports.hadError || d.isError, issued := reports.issued.push d }

/-- Issues a diagnostic; the answer is the receiver's. -/
def issue (d : Diagnostic) : Attempt Reports Unit :=
  ExceptT.mk fun reports => (reports.receiver.answer reports.issued d, reports.push d)

def reset (reports : Reports) : Reports := { reports with hadError := false }

/-- Forgets the issued diagnostics, not whether one of them was an error. -/
def forget (reports : Reports) : Reports := { reports with issued := #[] }

end Reports

end RelaxNg
