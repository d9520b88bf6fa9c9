import LispSyntax.Token.Read

/-! # Token streams

A stream reads one token ahead of what it hands out. Looking at the next token changes nothing; the
diagnostics recorded so far include those of the token that has been read ahead.
-/

namespace LispSyntax

structure TokenStream where
  registry : Registry
  current : Token
  diagnostics : List Diagnostic
  offset : Nat
  rest : Text

namespace TokenStream

def ofText (text : Text) (r : Registry) : TokenStream :=
  let reading := Token.read r 0 text
  ⟨r, reading.token, reading.diagnostics, reading.offset, reading.rest⟩

def peek (s : TokenStream) : Token :=
  s.current

/-- Hands out the next token and reads the one after it. Past the end it keeps handing out the end. -/
def next (s : TokenStream) : Token × TokenStream :=
  let reading := Token.read s.registry s.offset s.rest
  (s.current,
    { s with
      current := reading.token
      diagnostics := s.diagnostics ++ reading.diagnostics
      offset := reading.offset
      rest := reading.rest })

def finish (s : TokenStream) : List Diagnostic :=
  s.diagnostics

end TokenStream

end LispSyntax
