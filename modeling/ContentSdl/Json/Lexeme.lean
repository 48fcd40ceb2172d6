/-! # Words of a JSON text: what each says, and how it is at fault -/

namespace ContentSdl.Json

/-- A text ends too early, or is not JSON. -/
inductive Fault where
  | truncated
  | malformed
  deriving DecidableEq, Repr

/-- A string or number of a text, with what comes of decoding it and of skipping it. -/
structure Lexeme (α : Type) where
  decoded : Except Fault α
  skipped : Except Fault Unit
  /-- What can be decoded can be skipped. -/
  skips : ∀ a, decoded = .ok a → skipped = .ok ()

namespace Lexeme

def valid {α : Type} (a : α) : Lexeme α := ⟨.ok a, .ok (), fun _ _ => rfl⟩

def faulty {α : Type} (f : Fault) : Lexeme α := ⟨.error f, .error f, nofun⟩

/-- Broken off before a digit: at the end of the text the decoder finds it cut short, but not the
skipper. -/
def unfinished {α : Type} (rest : List Char) : Lexeme α :=
  ⟨.error (if rest.isEmpty then .truncated else .malformed), .error .malformed, nofun⟩

end Lexeme

end ContentSdl.Json
