import TokenGrammar.ReadError

/-!
Why a tokenizer did not do what it was asked.
-/

namespace TokenGrammar

inductive LexError where
  | read (error : ReadError)
  | doublePushBack
  | nothingToPushBack
  | doubleWordPushBack
  deriving DecidableEq, Repr, Inhabited

namespace LexError

def message : LexError → String
  | read error => "failed to read source: " ++ error.message
  | doublePushBack => "token pushed back twice without an intervening read"
  | nothingToPushBack => "no token has been read yet, nothing to push back"
  | doubleWordPushBack => "word character pushed back without a matching read"

def isUsageError : LexError → Bool
  | read _ => false
  | _ => true

end LexError

end TokenGrammar
